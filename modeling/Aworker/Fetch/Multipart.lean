/-
  Aworker.Fetch.Multipart — multipart form data (lib/fetch/form.js: `MultipartBuilder`,
  `MultipartParser`; lib/fetch/body_helper.js: `getHeaderValueParams`; lib/dom/file.js).

  The builder writes each entry's headers and contents after a delimiter. The parser goes
  through the body once, byte by byte; within contents it matches the delimiter and starts over
  at every byte that does not fit. What it finds is turned into a text or a file by the headers
  that it has collected before.

  Main results: `Reads`, `getBody_eq`.
-/

import Mathlib
import Aworker.Lib.Text
import Aworker.Lib.Utf8
import Aworker.Encoding.TextDecoder
import Aworker.Fetch.GrowableBuffer
import Aworker.Fetch.SharedHeaders

namespace Aworker.Fetch.Multipart

open Aworker.Lib Aworker.Fetch.Shared
open List hiding splitOn_eq_singleton

def crlf : Text := ['\r', '\n']

def dashes : Text := ['-', '-']

/-! ## Blobs and files -/

def containsOnlyASCII (t : Text) : Bool := t.all fun c => c.toNat ≤ 0x7f

/-- What the loop over the characters sets is set again after it. -/
def normalizedType (type : Text) : Text := if containsOnlyASCII type then toLowerCase type else []

structure Blob where
  bytes : Bytes
  type : Text
  deriving DecidableEq

def Blob.new (bytes : Bytes) (type : Text) : Blob := ⟨bytes, normalizedType type⟩

structure File extends Blob where
  name : Text
  deriving DecidableEq

/-- Every `/` becomes a `:`. -/
def fileName (name : Text) : Text := name.map fun c => if c = '/' then ':' else c

def File.new (bytes : Bytes) (name type : Text) : File := ⟨Blob.new bytes type, fileName name⟩

inductive FormValue where
  | text (value : Text)
  | file (value : File)
  deriving DecidableEq

abbrev Entry := Text × FormValue

/-- `parseFormDataValue` of a blob. -/
def parseFormDataValue (blob : Blob) (filename : Text) : FormValue :=
  .file (File.new blob.bytes (if filename = [] then "blob".toList else filename) blob.type)

/-! ## The builder -/

def defaultType : Text := "application/octet-stream".toList

def contentDisposition : Text := "Content-Disposition".toList

def contentType : Text := "Content-Type".toList

/-- The lines of `headers` and an empty one. -/
def headerText (headers : HeaderList) : Text := headers.flatMap (fun h => h.1 ++ ": ".toList ++ h.2 ++ crlf) ++ crlf

def fieldHeaders (field : Text) : HeaderList := [(contentDisposition, "form-data; name=\"".toList ++ field ++ ['"'])]

def fileHeaders (field filename type : Text) : HeaderList :=
  [(contentDisposition, "form-data; name=\"".toList ++ field ++ "\"; filename=\"".toList ++ filename ++ ['"']),
    (contentType, if type = [] then defaultType else type)]

def entryHeaders : Entry → HeaderList
  | (field, .text _) => fieldHeaders field
  | (field, .file f) => fileHeaders field f.name f.type

/-- What is written for the value: `encode(value)` or `value[bytesSymbol]`. -/
def entryContent : Entry → Bytes
  | (_, .text value) => Utf8.encode value
  | (_, .file f) => f.bytes

def writeHeaders (boundary : Text) (writer : GrowableBuffer) (headers : HeaderList) : Except BufferError GrowableBuffer :=
  writer.writeSync (Utf8.encode ((if writer.empty then [] else crlf) ++ (dashes ++ boundary ++ crlf) ++ headerText headers))

/-- `writeField`, `writeFile` -/
def writeEntry (boundary : Text) (writer : GrowableBuffer) (entry : Entry) : Except BufferError GrowableBuffer := do
  let writer ← writeHeaders boundary writer (entryHeaders entry)
  writer.writeSync (entryContent entry)

def writeEntries (boundary : Text) : List Entry → GrowableBuffer → Except BufferError GrowableBuffer
  | [], writer => .ok writer
  | entry :: entries, writer => do
    let writer ← writeEntry boundary writer entry
    writeEntries boundary entries writer

def getBody (boundary : Text) (entries : List Entry) : Except BufferError Bytes := do
  let writer ← writeEntries boundary entries GrowableBuffer.new
  let writer ← writer.writeSync (Utf8.encode (crlf ++ dashes ++ boundary ++ dashes))
  .ok writer.bytes

/-! ## Headers of a part -/

/-- `text.split('\r\n')` -/
def splitLines : Text → List Text
  | [] => [[]]
  | '\r' :: '\n' :: rest => [] :: splitLines rest
  | c :: rest => (splitLines rest).modifyHead (c :: ·)

/-- `v.replace(/^"([^"]*)"$/, '$1')` -/
def unquote (v : Text) : Text :=
  match v with
  | '"' :: rest => if rest.getLast? = some '"' ∧ '"' ∉ rest.dropLast then rest.dropLast else v
  | _ => v

def getHeaderValueParams (value : Text) : List (Text × Text) :=
  (((value.splitOn ';').drop 1).map fun s => (trimmed s).splitOn '=').filterMap fun
    | k :: v :: _ => some (k, unquote v)
    | _ => none

/-- `params.get(key)`: what was set last. -/
def paramsGet (params : List (Text × Text)) (key : Text) : Option Text := (params.reverse.find? (·.1 = key)).map Prod.snd

def setRawHeader (headers : HeaderList) (rawHeader : Text) : Except JsError HeaderList :=
  if rawHeader.contains ':' then
    Deep.set (rawHeader.takeWhile (· != ':')) ((rawHeader.dropWhile (· != ':')).drop 1) headers .none
  else .ok headers

def parseHeaders (headersText : Text) : Except JsError (HeaderList × List (Text × Text)) := do
  let headers ← (splitLines headersText).foldlM setRawHeader []
  .ok (headers, getHeaderValueParams ((dataGet headers (toLowerCase contentDisposition)).getD []))

/-! ## The parser -/

inductive ParseState where
  /-- 0: before the first line ends -/
  | preamble
  /-- 1: in the first line of the headers -/
  | first
  /-- 2: in the second -/
  | next
  /-- 3: in the empty line -/
  | blank
  /-- 4 -/
  | content
  /-- 5: after a delimiter -/
  | delimiter
  deriving DecidableEq

def ParseState.inHeaders : ParseState → Bool
  | .first | .next | .blank => true
  | _ => false

structure Parser where
  headerText : Text
  boundaryIndex : Nat
  state : ParseState
  fileStart : Nat
  formData : List Entry

def CR : UInt8 := 13

def LF : UInt8 := 10

def isNewLine (body : Bytes) (i : Nat) : Bool := body[i]? == some LF && i != 0 && body[i - 1]? == some CR

def fromCharCode (byte : UInt8) : Char := Char.ofNat byte.toNat

def nameKey : Text := "name".toList

def filenameKey : Text := "filename".toList

/-- A delimiter was found after `content`. -/
def finish (p : Parser) (content : Bytes) : Except JsError Parser := do
  let (headers, disposition) ← parseHeaders p.headerText
  let p := { p with state := .delimiter, boundaryIndex := 0, headerText := [] }
  match paramsGet disposition nameKey with
  | none => .ok p
  | some name =>
    if name = [] then .ok p
    else match paramsGet disposition filenameKey with
      | some (c :: filename) =>
        let type := match dataGet headers (toLowerCase contentType) with
          | some (t :: type) => t :: type
          | _ => defaultType
        .ok { p with formData := p.formData ++ [(name, parseFormDataValue (Blob.new content type) (c :: filename))] }
      | _ => .ok { p with formData := p.formData ++ [(name, .text (Encoding.decodeText content))] }

/-- One turn of the loop; `boundary` is with the dashes. -/
def step (boundary : Text) (body : Bytes) (i : Nat) (p : Parser) : Except JsError Parser :=
  match body[i]? with
  | none => .ok p
  | some byte =>
    let p := if p.state.inHeaders then { p with headerText := p.headerText ++ [fromCharCode byte] } else p
    match p.state with
    | .preamble => .ok (if isNewLine body i then { p with state := .first } else p)
    | .first =>
      .ok (if isNewLine body i then
        { p with state := if body[i + 1]? = some CR ∧ body[i + 2]? = some LF then .blank else .next } else p)
    | .next => .ok (if isNewLine body i then { p with state := .blank } else p)
    | .blank => .ok (if isNewLine body i then { p with state := .content, fileStart := i + 1 } else p)
    | .content =>
      let boundaryIndex := matchNext (Utf8.encode boundary) p.boundaryIndex byte
      if boundaryIndex ≥ boundary.length then
        finish p ((body.drop p.fileStart).take (i - boundaryIndex - 1 - p.fileStart))
      else .ok { p with boundaryIndex := boundaryIndex }
    | .delimiter => .ok (if isNewLine body i then { p with state := .first } else p)

/-- `n` turns from index `i` on. -/
def loop (boundary : Text) (body : Bytes) : Nat → Nat → Parser → Except JsError Parser
  | _, 0, p => .ok p
  | i, n + 1, p => do
    let p ← step boundary body i p
    loop boundary body (i + 1) n p

def parse (body : Bytes) (boundary : Text) : Except JsError (List Entry) :=
  if boundary = [] then .error (.typeError "multipart/form-data must provide a boundary".toList)
  else do
    let p ← loop (dashes ++ boundary) body 0 body.length ⟨[], 0, .preamble, 0, []⟩
    .ok p.formData

/-! ## Texts of one byte for each character -/

def isPrintable (c : Char) : Bool := 0x20 ≤ c.toNat && c.toNat ≤ 0x7e

def Printable (t : Text) : Prop := ∀ c ∈ t, isPrintable c = true

variable {t a b : Text} {c : Char}

theorem Printable.append (ha : Printable a) (hb : Printable b) : Printable (a ++ b) := fun c hc =>
  (mem_append.mp hc).elim (ha c) (hb c)

theorem isPrintable_iff : isPrintable c = true ↔ 0x20 ≤ c.toNat ∧ c.toNat ≤ 0x7e := by
  rw [isPrintable, Bool.and_eq_true, decide_eq_true_eq, decide_eq_true_eq]

theorem Printable.encode (h : Printable t) : Utf8.encode t = t.map fun c => UInt8.ofNat c.toNat :=
  Utf8.encode_ascii fun c hc => Nat.lt_succ_of_le ((isPrintable_iff.mp (h c hc)).2.trans (by decide))

theorem Printable.encode_length (h : Printable t) : (Utf8.encode t).length = t.length := by
  rw [h.encode, length_map]

theorem Printable.byte_ge (h : Printable t) : ∀ x ∈ Utf8.encode t, 0x20 ≤ x.toNat := by
  intro x hx
  rw [h.encode] at hx
  obtain ⟨c, hc, rfl⟩ := mem_map.mp hx
  obtain ⟨hge, hle⟩ := isPrintable_iff.mp (h c hc)
  rw [UInt8.toNat_ofNat', Nat.mod_eq_of_lt (by omega)]
  exact hge

theorem Printable.lf (h : Printable t) : LF ∉ Utf8.encode t := fun hm => absurd (h.byte_ge LF hm) (by decide)

theorem Printable.cr (h : Printable t) : CR ∉ Utf8.encode t := fun hm => absurd (h.byte_ge CR hm) (by decide)

theorem Printable.map_fromCharCode (h : Printable t) : (Utf8.encode t).map fromCharCode = t := by
  rw [h.encode, map_map]
  refine (map_congr_left fun c hc => ?_).trans (map_id t)
  obtain ⟨-, hle⟩ := isPrintable_iff.mp (h c hc)
  rw [Function.comp_apply, fromCharCode, UInt8.toNat_ofNat', Nat.mod_eq_of_lt (by omega), Char.ofNat_toNat, id_eq]

/-! ## Reading a piece of the body -/

variable {boundary : Text} {body seg s1 s2 : Bytes} {x : UInt8} {i : Nat} {p q r : Parser}

theorem prefix_drop_cons : x :: seg <+: body.drop i ↔ body[i]? = some x ∧ seg <+: body.drop (i + 1) := by
  have hdrop : body.drop (i + 1) = (body.drop i).drop 1 := by rw [drop_drop]
  have hget : body[i]? = (body.drop i)[0]? := by rw [getElem?_drop, Nat.add_zero]
  rw [hdrop, hget]
  cases body.drop i with
  | nil => simp
  | cons y rest => simp [cons_prefix_cons, eq_comm]

theorem prefix_drop_append : s1 ++ s2 <+: body.drop i ↔ s1 <+: body.drop i ∧ s2 <+: body.drop (i + s1.length) := by
  induction s1 generalizing i with
  | nil => simp
  | cons x s1 ih =>
    rw [cons_append, prefix_drop_cons, ih, prefix_drop_cons, and_assoc, length_cons, Nat.add_assoc, Nat.add_comm 1]

/-- Where the body has `seg` from `i` on, the loop over it goes from `p` to `q`. -/
def Reads (boundary : Text) (body : Bytes) (i : Nat) (seg : Bytes) (p q : Parser) : Prop :=
  seg <+: body.drop i → loop boundary body i seg.length p = .ok q

theorem loop_add (m n i : Nat) (p : Parser) :
    loop boundary body i (m + n) p = loop boundary body i m p >>= fun q => loop boundary body (i + m) n q := by
  induction m generalizing i p with
  | zero => rw [Nat.zero_add]; rfl
  | succ m ih =>
    rw [Nat.succ_add, loop, loop, bind_assoc]
    refine congrArg _ (funext fun q => ?_)
    rw [ih, Nat.add_assoc, Nat.add_comm 1]

theorem Reads.append (h1 : Reads boundary body i s1 p q) (h2 : Reads boundary body (i + s1.length) s2 q r) :
    Reads boundary body i (s1 ++ s2) p r := by
  intro hs
  obtain ⟨hs1, hs2⟩ := prefix_drop_append.mp hs
  rw [length_append, loop_add, h1 hs1]
  exact h2 hs2

theorem Reads.nil : Reads boundary body i [] p p := fun _ => rfl

theorem Reads.cons (h1 : body[i]? = some x → step boundary body i p = .ok q) (h2 : Reads boundary body (i + 1) seg q r) :
    Reads boundary body i (x :: seg) p r := by
  intro hs
  obtain ⟨hx, hs⟩ := prefix_drop_cons.mp hs
  rw [length_cons, loop, h1 hx]
  exact h2 hs

theorem isNewLine_false (hx : body[i]? = some x) (hne : x ≠ LF) : isNewLine body i = false := by
  rw [isNewLine, hx]
  simp [hne]

theorem isNewLine_true (hcr : body[i]? = some CR) (hlf : body[i + 1]? = some LF) : isNewLine body (i + 1) = true := by
  rw [isNewLine, hlf, Nat.add_sub_cancel, hcr]
  simp

theorem reads_quiet (hlf : LF ∉ seg) (hp : p.state = .preamble ∨ p.state = .delimiter) : Reads boundary body i seg p p := by
  induction seg generalizing i with
  | nil => exact Reads.nil
  | cons x seg ih =>
    refine Reads.cons (fun hx => ?_) (ih fun hm => hlf (mem_cons_of_mem x hm))
    have hnew := isNewLine_false hx fun he => hlf (he ▸ mem_cons_self)
    rcases hp with hp | hp <;> simp [step, hx, hp, hnew, ParseState.inHeaders]

theorem reads_line (hlf : LF ∉ seg) (hp : p.state.inHeaders = true) :
    Reads boundary body i seg p { p with headerText := p.headerText ++ seg.map fromCharCode } := by
  induction seg generalizing i p with
  | nil =>
    intro _
    rw [map_nil, append_nil]
    rfl
  | cons x seg ih =>
    have hrest := ih (i := i + 1) (p := { p with headerText := p.headerText ++ [fromCharCode x] }) (fun hm => hlf (mem_cons_of_mem x hm)) hp
    refine Reads.cons (fun hx => ?_) (by simpa using hrest)
    have hnew := isNewLine_false hx fun he => hlf (he ▸ mem_cons_self)
    cases hstate : p.state <;> simp [step, hx, hstate, hnew, ParseState.inHeaders] at hp ⊢

/-! ## The end of a line -/

theorem encode_crlf : Utf8.encode crlf = [CR, LF] := rfl

theorem reads_crlf (h : body[i]? = some CR → body[i + 1]? = some LF → isNewLine body i = false → isNewLine body (i + 1) = true →
      (step boundary body i p >>= step boundary body (i + 1)) = .ok q) :
    Reads boundary body i [CR, LF] p q := by
  intro hs
  obtain ⟨hcr, hs⟩ := prefix_drop_cons.mp hs
  obtain ⟨hlf, -⟩ := prefix_drop_cons.mp hs
  have hq := h hcr hlf (isNewLine_false hcr (by decide)) (isNewLine_true hcr hlf)
  show (step boundary body i p >>= fun p' => step boundary body (i + 1) p' >>= fun p'' => .ok p'') = .ok q
  rw [← hq]
  refine congrArg _ (funext fun p' => ?_)
  cases step boundary body (i + 1) p' <;> rfl

theorem reads_crlf_quiet (hp : p.state = .preamble ∨ p.state = .delimiter) :
    Reads boundary body i [CR, LF] p { p with state := .first } := by
  refine reads_crlf fun hcr hlf h0 h1 => ?_
  rcases hp with hp | hp <;> simp [step, hcr, hlf, hp, h0, h1, ParseState.inHeaders, bind, Except.bind]

variable {k fileStart : Nat} {formData : List Entry}

theorem reads_crlf_first {st : ParseState} (hst : (if body[i + 2]? = some CR ∧ body[i + 3]? = some LF then .blank else .next) = st) :
    Reads boundary body i [CR, LF] ⟨t, k, .first, fileStart, formData⟩ ⟨t ++ crlf, k, st, fileStart, formData⟩ := by
  refine reads_crlf fun hcr hlf h0 h1 => ?_
  simp [step, hcr, hlf, h0, h1, ParseState.inHeaders, bind, Except.bind]
  exact ⟨rfl, hst⟩

theorem reads_crlf_next :
    Reads boundary body i [CR, LF] ⟨t, k, .next, fileStart, formData⟩ ⟨t ++ crlf, k, .blank, fileStart, formData⟩ := by
  refine reads_crlf fun hcr hlf h0 h1 => ?_
  simp [step, hcr, hlf, h0, h1, ParseState.inHeaders, bind, Except.bind]
  rfl

theorem reads_crlf_blank :
    Reads boundary body i [CR, LF] ⟨t, k, .blank, fileStart, formData⟩ ⟨t ++ crlf, k, .content, i + 2, formData⟩ := by
  refine reads_crlf fun hcr hlf h0 h1 => ?_
  simp [step, hcr, hlf, h0, h1, ParseState.inHeaders, bind, Except.bind]
  rfl

/-! ## The headers of a part -/

theorem encode_line (t : Text) : Utf8.encode (t ++ crlf) = Utf8.encode t ++ [CR, LF] := Utf8.encode_append t crlf

theorem length_crlf (i : Nat) (seg : Bytes) : i + (seg ++ [CR, LF]).length = i + seg.length + 2 := by
  rw [length_append, Nat.add_assoc]
  rfl

/-! ## Contents -/

theorem reads_content (hb : Printable boundary) {done : Bytes} (hdone : (Utf8.encode boundary).take k <:+ done)
    (hno : ¬Utf8.encode boundary <:+: done ++ seg) :
    Reads boundary body i seg ⟨t, k, .content, fileStart, formData⟩
      ⟨t, seg.foldl (matchNext (Utf8.encode boundary)) k, .content, fileStart, formData⟩ := by
  induction seg generalizing i k done with
  | nil => exact Reads.nil
  | cons x seg ih =>
    have hno' : ¬Utf8.encode boundary <:+: done ++ [x] := fun hin => by
      rw [append_cons] at hno
      exact hno (hin.trans (prefix_append _ _).isInfix)
    have hlt := matchNext_lt hdone hno'
    rw [hb.encode_length] at hlt
    refine Reads.cons (fun hx => ?_) (ih (matchNext_suffix hdone) (by rwa [append_assoc, singleton_append]))
    simp [step, hx, ParseState.inHeaders, Nat.not_le.mpr hlt]

theorem reads_crlf_content (hb : Printable boundary) (hne : boundary ≠ []) :
    Reads boundary body i [CR, LF] ⟨t, k, .content, fileStart, formData⟩ ⟨t, 0, .content, fileStart, formData⟩ := by
  have hlt : ¬boundary.length ≤ 0 := fun hle => hne (eq_nil_of_length_eq_zero (Nat.le_zero.mp hle))
  have hreset {x : UInt8} {i k : Nat} (hmem : x ∉ Utf8.encode boundary) (hx : body[i]? = some x) :
      step boundary body i ⟨t, k, .content, fileStart, formData⟩ = .ok ⟨t, 0, .content, fileStart, formData⟩ := by
    simp only [step, hx, ParseState.inHeaders, Bool.false_eq_true, if_false, matchNext_of_notMem hmem, ge_iff_le, if_neg hlt]
  exact Reads.cons (hreset hb.cr) (Reads.cons (hreset hb.lf) Reads.nil)

theorem reads_delimiter (hb : Printable boundary) {d1 d2 : Bytes} (hd : Utf8.encode boundary = d1 ++ d2) (hne : d2 ≠ [])
    (hfin : finish ⟨t, 0, .content, fileStart, formData⟩
      ((body.drop fileStart).take (i + d2.length - 1 - boundary.length - 1 - fileStart)) = .ok q) :
    Reads boundary body i d2 ⟨t, d1.length, .content, fileStart, formData⟩ q := by
  induction d2 generalizing i d1 with
  | nil => exact absurd rfl hne
  | cons x d2 ih =>
    have hmatch : matchNext (Utf8.encode boundary) d1.length x = d1.length + 1 := by
      rw [matchNext, hd, getElem?_append_right le_rfl, Nat.sub_self]
      exact if_pos rfl
    have hlen : boundary.length = d1.length + (d2.length + 1) := by
      rw [← hb.encode_length, hd, length_append, length_cons]
    cases d2 with
    | nil =>
      refine Reads.cons (fun hx => ?_) Reads.nil
      have hge : d1.length + 1 ≥ boundary.length := hlen.le
      have hend : d1.length + 1 = boundary.length := hlen.symm
      simp only [step, hx, ParseState.inHeaders, Bool.false_eq_true, if_false, hmatch, if_pos hge]
      rw [hend]
      exact hfin
    | cons y d2 =>
      have hlt : ¬d1.length + 1 ≥ boundary.length := by
        rw [hlen, length_cons]
        omega
      have hd' : Utf8.encode boundary = (d1 ++ [x]) ++ (y :: d2) := by rw [hd, append_assoc, singleton_append]
      have hrest := ih (i := i + 1) hd' (cons_ne_nil y d2) (by rw [length_cons] at hfin; rwa [Nat.add_right_comm, Nat.add_assoc i])
      rw [length_append, length_singleton] at hrest
      refine Reads.cons (fun hx => ?_) hrest
      simp only [step, hx, ParseState.inHeaders, Bool.false_eq_true, if_false, hmatch, if_neg hlt]

theorem reads_part (hb : Printable boundary) (hne : boundary ≠ []) (hno : ¬Utf8.encode boundary <:+: seg)
    (hfin : finish ⟨t, 0, .content, i, formData⟩ seg = .ok q) :
    Reads boundary body i (seg ++ [CR, LF] ++ Utf8.encode boundary) ⟨t, 0, .content, i, formData⟩ q := by
  intro hs
  obtain ⟨hseg, -⟩ := prefix_drop_append.mp hs
  obtain ⟨hseg, -⟩ := prefix_drop_append.mp hseg
  have hlen : (Utf8.encode boundary).length = boundary.length := hb.encode_length
  have hpos : 0 < boundary.length := length_pos_of_ne_nil hne
  have hdne : Utf8.encode boundary ≠ [] := fun hnil => by
    rw [hnil] at hlen
    exact absurd hlen hpos.ne
  have hslice : (body.drop i).take (i + (seg ++ [CR, LF]).length + (Utf8.encode boundary).length - 1 - boundary.length - 1 - i) = seg := by
    have hidx : i + (seg ++ [CR, LF]).length + (Utf8.encode boundary).length - 1 - boundary.length - 1 - i = seg.length := by
      rw [length_crlf, hlen]
      omega
    rw [hidx]
    exact (prefix_iff_eq_take.mp hseg).symm
  have hcontent : Reads boundary body i seg ⟨t, 0, .content, i, formData⟩ _ := reads_content hb (nil_suffix (l := [])) hno
  exact ((hcontent.append (reads_crlf_content hb hne)).append
    (reads_delimiter hb (nil_append _).symm hdne (by rw [hslice]; exact hfin))) hs

/-! ## What the headers say -/

theorem splitLines_append (h : '\r' ∉ a) : splitLines (a ++ crlf ++ b) = a :: splitLines b := by
  induction a with
  | nil => rfl
  | cons c a ih =>
    have hc : c ≠ '\r' := fun he => h (he ▸ mem_cons_self)
    have hrest := ih fun hm => h (mem_cons_of_mem c hm)
    rw [cons_append, cons_append, splitLines, hrest, modifyHead_cons]
    intro rest he
    exact absurd he hc

theorem Printable.notMem (h : Printable t) (hc : isPrintable c = false) : c ∉ t := fun hm => by
  rw [h c hm] at hc
  cases hc

theorem Printable.legalValue (h : Printable t) : legalValue t = true := by
  refine all_eq_true.mpr fun c hc => ?_
  obtain ⟨hge, hle⟩ := isPrintable_iff.mp (h c hc)
  simp only [isHeaderChar, Bool.or_eq_true, Bool.and_eq_true, decide_eq_true_eq]
  exact Or.inl (Or.inr ⟨hge, hle⟩)

theorem Printable.isWhiteSpace (h : isPrintable c = true) (hc : c ≠ ' ') : isWhiteSpace c = false := by
  obtain ⟨hge, hle⟩ := isPrintable_iff.mp h
  have hne : c.toNat ≠ 0x20 := fun he => hc (Char.toNat_inj.mp he)
  simp only [Fetch.isWhiteSpace, Bool.or_eq_false_iff, Bool.and_eq_false_iff, decide_eq_false_iff_not, beq_eq_false_iff_ne]
  omega

theorem Printable.trimmed (h : Printable t) (hfirst : t.head? ≠ some ' ') (hlast : t.getLast? ≠ some ' ') : trimmed t = t := by
  refine trim_eq_self (fun c hc => ?_) fun c hc => ?_
  · exact Printable.isWhiteSpace (h c (mem_of_mem_head? hc)) fun he => hfirst (he ▸ hc)
  · exact Printable.isWhiteSpace (h c (mem_of_mem_getLast? hc)) fun he => hlast (he ▸ hc)

/-! ## Entries that can be sent -/

/-- A name that a parameter of a header can hold. -/
structure Plain (name : Text) : Prop where
  nonempty : name ≠ []
  printable : Printable name
  quote : '"' ∉ name
  semicolon : ';' ∉ name
  equals : '=' ∉ name

structure PlainType (type : Text) : Prop where
  printable : Printable type
  lowerCase : toLowerCase type = type
  first : type.head? ≠ some ' '
  last : type.getLast? ≠ some ' '

structure Sendable (boundary : Text) (entry : Entry) : Prop where
  name : Plain entry.1
  value : match entry.2 with
    | .text value => value.head? ≠ some (Char.ofNat 0xFEFF)
    | .file f => Plain f.name ∧ PlainType f.type
  /-- the contents do not have the delimiter in them -/
  absent : ¬Utf8.encode (dashes ++ boundary) <:+: entryContent entry

def typeOrDefault (type : Text) : Text := if type = [] then defaultType else type

def received : Entry → Entry
  | (name, .text value) => (name, .text value)
  | (name, .file f) => (name, .file ⟨⟨f.bytes, typeOrDefault f.type⟩, fileName f.name⟩)

/-! ## Parameters -/

def quoted (value : Text) : Text := '"' :: (value ++ ['"'])

theorem unquote_quoted (h : '"' ∉ a) : unquote (quoted a) = a := by
  have hquoted : (a ++ ['"']).getLast? = some '"' ∧ '"' ∉ (a ++ ['"']).dropLast := by
    rw [List.getLast?_concat, dropLast_concat]
    exact ⟨rfl, h⟩
  rw [quoted, unquote, if_pos hquoted, dropLast_concat]

theorem printable_of_all (h : t.all isPrintable = true) : Printable t := all_eq_true.mp h

theorem notMem_of_contains (h : t.contains c = false) : c ∉ t := by
  rw [← contains_iff_mem, h]
  exact Bool.false_ne_true

theorem quoted_getLast? (pre value : Text) : (pre ++ quoted value).getLast? = some '"' := by
  rw [quoted, ← cons_append, ← append_assoc, List.getLast?_concat]

theorem notMem_quoted (hc : c ≠ '"') (h : c ∉ a) : c ∉ quoted a := by
  simp [quoted, hc, h]

structure ParamKey (key : Text) : Prop where
  printable : Printable key
  nonempty : key ≠ []
  first : key.head? ≠ some ' '
  semicolon : ';' ∉ key
  equals : '=' ∉ key

theorem nameKey_ok : ParamKey nameKey := ⟨printable_of_all rfl, by decide, by decide, notMem_of_contains rfl, notMem_of_contains rfl⟩

theorem filenameKey_ok : ParamKey filenameKey := ⟨printable_of_all rfl, by decide, by decide, notMem_of_contains rfl, notMem_of_contains rfl⟩

theorem trimmed_quoted {pre : Text} (hne : pre ≠ []) (hfirst : ∀ c, pre.head? = some c → isWhiteSpace c = false) (a : Text) :
    trimmed (' ' :: (pre ++ quoted a)) = pre ++ quoted a := by
  rw [trimmed, trim_cons (by decide)]
  refine trim_eq_self (fun c hc => ?_) fun c hc => ?_
  · rw [head?_append_of_ne_nil pre hne] at hc
    exact hfirst c hc
  · rw [quoted_getLast?] at hc
    cases hc
    rfl

variable {key : Text}

theorem param_written (hkey : ParamKey key) (h : '=' ∉ a) :
    (trimmed (' ' :: (key ++ '=' :: quoted a))).splitOn '=' = [key, quoted a] := by
  have hfirst (c : Char) (hc : (key ++ ['=']).head? = some c) : isWhiteSpace c = false := by
    rw [head?_append_of_ne_nil key hkey.nonempty] at hc
    exact Printable.isWhiteSpace (hkey.printable c (mem_of_mem_head? hc)) fun he => hkey.first (he ▸ hc)
  rw [append_cons, trimmed_quoted (by simp) hfirst, ← append_cons, splitOn_append hkey.equals,
    splitOn_eq_singleton (notMem_quoted (by decide) h)]

theorem semicolon_notMem (hkey : ParamKey key) (h : ';' ∉ a) : ';' ∉ ' ' :: (key ++ '=' :: quoted a) := by
  simp [hkey.semicolon, notMem_quoted (show ';' ≠ '"' by decide) h]

def formDataType : Text := "form-data".toList

theorem semicolon_notMem_formDataType : ';' ∉ formDataType := notMem_of_contains rfl

theorem params_field (hs : ';' ∉ a) (he : '=' ∉ a) :
    getHeaderValueParams (formDataType ++ ';' :: (' ' :: (nameKey ++ '=' :: quoted a))) = [(nameKey, unquote (quoted a))] := by
  rw [getHeaderValueParams, splitOn_append semicolon_notMem_formDataType, splitOn_eq_singleton (semicolon_notMem nameKey_ok hs),
    drop_one, tail_cons, map_singleton, param_written nameKey_ok he]
  rfl

theorem params_file (hsa : ';' ∉ a) (hea : '=' ∉ a) (hsb : ';' ∉ b) (heb : '=' ∉ b) :
    getHeaderValueParams (formDataType ++ ';' :: (' ' :: (nameKey ++ '=' :: quoted a) ++ ';' :: (' ' :: (filenameKey ++ '=' :: quoted b)))) =
      [(nameKey, unquote (quoted a)), (filenameKey, unquote (quoted b))] := by
  rw [getHeaderValueParams, splitOn_append semicolon_notMem_formDataType, splitOn_append (semicolon_notMem nameKey_ok hsa),
    splitOn_eq_singleton (semicolon_notMem filenameKey_ok hsb), drop_one, tail_cons, map_cons, map_singleton,
    param_written nameKey_ok hea, param_written filenameKey_ok heb]
  rfl

/-! ## The headers of an entry -/

theorem fieldHeaders_eq (a : Text) : fieldHeaders a = [(contentDisposition, formDataType ++ ';' :: (' ' :: (nameKey ++ '=' :: quoted a)))] := by
  rw [fieldHeaders, append_assoc]
  rfl

theorem fileHeaders_eq (a b type : Text) :
    fileHeaders a b type =
      [(contentDisposition, formDataType ++ ';' :: (' ' :: (nameKey ++ '=' :: quoted a) ++ ';' :: (' ' :: (filenameKey ++ '=' :: quoted b)))),
        (contentType, typeOrDefault type)] := by
  have hquoted (rest : Text) : quoted a ++ rest = '"' :: (a ++ ('"' :: rest)) := by simp [quoted]
  have happend : ' ' :: (nameKey ++ '=' :: quoted a) ++ ';' :: (' ' :: (filenameKey ++ '=' :: quoted b)) =
      ' ' :: (nameKey ++ '=' :: '"' :: (a ++ ('"' :: ';' :: ' ' :: (filenameKey ++ '=' :: quoted b)))) := by
    rw [cons_append, append_assoc, cons_append, hquoted]
  rw [happend, fileHeaders, append_assoc, append_assoc, append_assoc]
  rfl

variable {type : Text}

theorem typeOrDefault_plain (h : PlainType type) : PlainType (typeOrDefault type) ∧ typeOrDefault type ≠ [] := by
  unfold typeOrDefault
  split
  · exact ⟨⟨printable_of_all rfl, rfl, by decide, by decide⟩, by decide⟩
  · rename_i hne
    exact ⟨h, hne⟩

theorem dispositionKey_ne_typeKey : toLowerCase contentDisposition ≠ toLowerCase contentType := ne_of_beq_false rfl

theorem dispositionKey_ne_setCookie : toLowerCase contentDisposition ≠ setCookie := ne_of_beq_false rfl

theorem typeKey_ne_setCookie : toLowerCase contentType ≠ setCookie := ne_of_beq_false rfl

/-! ## Values -/

theorem normalizedType_plain (h : PlainType type) : normalizedType type = type := by
  have hascii : containsOnlyASCII type = true := all_eq_true.mpr fun c hc => by
    obtain ⟨-, hle⟩ := isPrintable_iff.mp (h.printable c hc)
    exact decide_eq_true (by omega)
  rw [normalizedType, if_pos hascii, h.lowerCase]

theorem decodeText_encode (h : t.head? ≠ some (Char.ofNat 0xFEFF)) : Encoding.decodeText (Utf8.encode t) = t := by
  rw [Encoding.decodeText, Utf8.decode_encode]
  cases t with
  | nil => rfl
  | cons c rest =>
    have hc : c.toNat ≠ 0xFEFF := by
      intro he
      have hchar : c = Char.ofNat 0xFEFF := by rw [← he, Char.ofNat_toNat]
      exact h (congrArg some hchar)
    rw [Encoding.withoutMark, if_neg hc]

theorem nameKey_ne_filenameKey : nameKey ≠ filenameKey := ne_of_beq_false rfl

theorem paramsGet_field (a : Text) : paramsGet [(nameKey, a)] nameKey = some a ∧ paramsGet [(nameKey, a)] filenameKey = none := by
  simp [paramsGet, nameKey_ne_filenameKey]

theorem paramsGet_file (a b : Text) :
    paramsGet [(nameKey, a), (filenameKey, b)] nameKey = some a ∧ paramsGet [(nameKey, a), (filenameKey, b)] filenameKey = some b := by
  simp [paramsGet, nameKey_ne_filenameKey.symm]

/-! ## The whole body -/

def part (entry : Entry) : Bytes := Utf8.encode (headerText (entryHeaders entry)) ++ entryContent entry

def rest (boundary : Text) : List Entry → Bytes
  | [] => [CR, LF] ++ Utf8.encode (dashes ++ boundary) ++ Utf8.encode dashes
  | entry :: entries => [CR, LF] ++ Utf8.encode (dashes ++ boundary) ++ [CR, LF] ++ part entry ++ rest boundary entries

def multipart (boundary : Text) : List Entry → Bytes
  | [] => rest boundary []
  | entry :: entries => Utf8.encode (dashes ++ boundary) ++ [CR, LF] ++ part entry ++ rest boundary entries

/-! ## Building -/

open GrowableBuffer (Writes)

theorem writeEntry_writes (boundary : Text) (g : GrowableBuffer) (entry : Entry) :
    Writes g ((if g.empty then [] else [CR, LF]) ++ Utf8.encode (dashes ++ boundary) ++ [CR, LF] ++ part entry) (writeEntry boundary g entry) := by
  have hseparator : Utf8.encode (if g.empty then [] else crlf) = if g.empty then [] else [CR, LF] := by split <;> rfl
  have hout : Utf8.encode ((if g.empty then [] else crlf) ++ (dashes ++ boundary ++ crlf) ++ headerText (entryHeaders entry)) ++ entryContent entry =
      (if g.empty then [] else [CR, LF]) ++ Utf8.encode (dashes ++ boundary) ++ [CR, LF] ++ part entry := by
    rw [Utf8.encode_append, Utf8.encode_append, hseparator, encode_line, part]
    simp only [append_assoc]
  rw [← hout]
  exact (GrowableBuffer.writeSync_writes g _).bind fun g' _ => GrowableBuffer.writeSync_writes g' _

theorem encode_end (boundary : Text) : Utf8.encode (crlf ++ dashes ++ boundary ++ dashes) = rest boundary [] := by
  simp only [rest, Utf8.encode_append, append_assoc, encode_crlf]

theorem empty_iff (g : GrowableBuffer) : g.empty = true ↔ g.bytes = [] := by
  rw [GrowableBuffer.empty, decide_eq_true_eq, Nat.le_zero, ← g.bytes_length, length_eq_zero_iff]

theorem writeEntries_writes (boundary : Text) (entries : List Entry) {g : GrowableBuffer} (hg : g.bytes ≠ []) :
    Writes g (rest boundary entries)
      (writeEntries boundary entries g >>= fun writer => writer.writeSync (Utf8.encode (crlf ++ dashes ++ boundary ++ dashes))) := by
  induction entries generalizing g with
  | nil =>
    rw [← encode_end]
    exact GrowableBuffer.writeSync_writes g _
  | cons entry entries ih =>
    have hwrite := writeEntry_writes boundary g entry
    rw [if_neg (mt (empty_iff g).mp hg)] at hwrite
    rw [writeEntries, bind_assoc]
    refine hwrite.bind fun g' hg' => ih ?_
    rw [hg']
    simp [hg]

theorem getBody_eq (boundary : Text) (entries : List Entry) :
    getBody boundary entries = .error .maximumSize ∧ 2 ^ 31 ≤ (multipart boundary entries).length ∨
      getBody boundary entries = .ok (multipart boundary entries) ∧ (multipart boundary entries).length ≤ maxSize := by
  have hwrites : Writes GrowableBuffer.new (multipart boundary entries)
      (writeEntries boundary entries GrowableBuffer.new >>= fun writer => writer.writeSync (Utf8.encode (crlf ++ dashes ++ boundary ++ dashes))) := by
    cases entries with
    | nil =>
      rw [multipart, ← encode_end]
      exact GrowableBuffer.writeSync_writes _ _
    | cons entry entries =>
      have hwrite := writeEntry_writes boundary GrowableBuffer.new entry
      rw [writeEntries, bind_assoc]
      refine hwrite.bind fun g' hg' => writeEntries_writes boundary entries ?_
      rw [hg']
      simp
  rw [getBody, ← bind_assoc]
  rcases id hwrites with ⟨he, hlarge⟩ | ⟨g, hg, -, -⟩
  · rw [he]
    exact Or.inl ⟨rfl, by simpa [GrowableBuffer.new, GrowableBuffer.bytes] using hlarge⟩
  · rw [hg] at hwrites ⊢
    obtain ⟨hbytes, hle⟩ := hwrites.length_le
    exact Or.inr ⟨congrArg Except.ok hbytes, hle⟩

/-! ## Parsing -/

section

variable (hb : Printable boundary)

include hb

theorem dashes_printable : Printable (dashes ++ boundary) := Printable.append (printable_of_all rfl) hb

/-- A body without entries: what follows the first line break is taken for a header. -/
theorem reads_nothing (body : Bytes) : ∃ text, Reads (dashes ++ boundary) body 0 (multipart boundary []) ⟨[], 0, .preamble, 0, []⟩ ⟨text, 0, .first, 0, []⟩ := by
  have hline : Printable (dashes ++ boundary ++ dashes) := (dashes_printable hb).append (printable_of_all rfl)
  have hbreak : Reads (dashes ++ boundary) body 0 [CR, LF] ⟨[], 0, .preamble, 0, []⟩ ⟨[], 0, .first, 0, []⟩ := reads_crlf_quiet (Or.inl rfl)
  have hread := hbreak.append (reads_line hline.lf rfl)
  rw [Utf8.encode_append, ← append_assoc] at hread
  exact ⟨_, hread⟩

end

/-- The name of a `File` arrives as it is. -/
theorem fileName_new (bytes : Bytes) (name type : Text) : fileName (File.new bytes name type).name = (File.new bytes name type).name := by
  show fileName (fileName name) = fileName name
  unfold fileName
  rw [map_map]
  refine map_congr_left fun c _ => ?_
  by_cases hc : c = '/'
  · simp [hc]
  · simp [hc]

def sampleBoundary : Text := ['-', 'x']

end Aworker.Fetch.Multipart
