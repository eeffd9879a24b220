/-
  Aworker.Url.SearchParams — `UrlSearchParams` (src/url/url.cc) with its encoder and decoder
  (src/url/uri_encode.cc, src/url/uri_encode-macros.data).

  The encoder works through a table of all octets, the parser through four states, and the
  decoder leaves an escape alone that is none. `&` and `=` are escaped in names and values, so
  the parser finds exactly the separators that `toString` wrote. It counts the octets in an
  `int32_t`, though: a longer string is parsed up to its length modulo `2 ^ 32`, or not at all.

  (1) `parse_toString_iff`: a list is parsed back from its string exactly if the string is
      shorter than `2 ^ 31`. A string that is cut cannot hold all pairs (`parse_weight`).
      `long_name_lost` is one pair that comes back as none.
-/

import Mathlib

namespace Aworker.Url

open List

abbrev Bytes := List UInt8

abbrev ParamEntry := Bytes × Bytes

def amp : UInt8 := 0x26
def equal : UInt8 := 0x3D
def percent : UInt8 := 0x25
def plus : UInt8 := 0x2B
def space : UInt8 := 0x20
def questionMark : UInt8 := 0x3F

/-! ## Encoding -/

/-- The octets with no entry in `uri_encode_tbl`: `*`, `-`, `.`, digits, letters, `_`, `~`. -/
def unreserved (b : UInt8) : Bool :=
  b = 0x2A || b = 0x2D || b = 0x2E || 0x30 ≤ b && b ≤ 0x39 || 0x41 ≤ b && b ≤ 0x5A || b = 0x5F || 0x61 ≤ b && b ≤ 0x7A || b = 0x7E

def hexDigit (n : Nat) : UInt8 := UInt8.ofNat (if n < 10 then 0x30 + n else 0x37 + n)

def uriEncodeTbl (b : UInt8) : Option Bytes :=
  if unreserved b then none else some [percent, hexDigit (b.toNat / 16), hexDigit (b.toNat % 16)]

/-- `Encode` with `space_to_plus` set, one octet. -/
def encodeOctet (octet : UInt8) : Bytes :=
  if octet = space then [plus]
  else
    match uriEncodeTbl octet with
    | some code => code
    | none => [octet]

def encode (src : Bytes) : Bytes := src.flatMap encodeOctet

/-- `hexval`, where `none` is 0xFF. -/
def hexval (b : UInt8) : Option Nat :=
  if 0x30 ≤ b ∧ b ≤ 0x39 then some (b.toNat - 0x30)
  else if 0x41 ≤ b ∧ b ≤ 0x46 then some (b.toNat - 0x37)
  else if 0x61 ≤ b ∧ b ≤ 0x66 then some (b.toNat - 0x57)
  else none

def copyChar (b : UInt8) : UInt8 := if b = plus then space else b

def decode : Bytes → Bytes
  | [] => []
  | [a] => [copyChar a]
  | [a, b] => [copyChar a, copyChar b]
  | a :: b :: c :: src =>
    if a = percent then
      match hexval b, hexval c with
      | some v1, some v2 => UInt8.ofNat (v1 * 16 + v2) :: decode src
      -- skip invalid hex sequences
      | _, _ => a :: decode (b :: c :: src)
    else copyChar a :: decode (b :: c :: src)

/-! ## Parsing -/

inductive ParseState where
  | key
  | value
  | equal
  | and
  deriving DecidableEq

/-- The parser between two octets; `key` and `value` are what the pointers and lengths span. -/
structure Parser where
  state : ParseState := .and
  key : Bytes := []
  value : Bytes := []
  params : List ParamEntry := []

def Parser.append (p : Parser) : Parser :=
  { params := p.params ++ [(decode p.key, decode p.value)] }

def Parser.octet (p : Parser) (c : UInt8) : Parser :=
  if c = amp then
    match p.state with
    | .and => p
    | .equal | .key | .value => p.append
  else if c = equal then
    match p.state with
    | .and | .key => { p with state := .equal }
    | .equal => { p with state := .value, value := [c] }
    | .value => { p with value := p.value ++ [c] }
  else
    match p.state with
    | .and => { p with state := .key, key := [c] }
    | .equal => { p with state := .value, value := [c] }
    | .key => { p with key := p.key ++ [c] }
    | .value => { p with value := p.value ++ [c] }

def Parser.finish (p : Parser) : List ParamEntry :=
  if p.key ≠ [] ∨ p.value ≠ [] ∨ p.state = .equal then p.append.params else p.params

/-- A length as an `int32_t`. -/
def int32 (n : Nat) : Int := (n : Int).bmod (2 ^ 32)

def parse (search : Bytes) : List ParamEntry :=
  let offset := if search.head? = some questionMark then 1 else 0
  let len := int32 (search.length - offset)
  (((search.drop offset).take len.toNat).foldl Parser.octet {}).finish

def entryToString (e : ParamEntry) : Bytes := encode e.1 ++ equal :: encode e.2

def toString : List ParamEntry → Bytes
  | [] => []
  | [e] => entryToString e
  | e :: params => entryToString e ++ amp :: toString params

theorem toString_cons (e e' : ParamEntry) (params : List ParamEntry) :
    toString (e :: e' :: params) = entryToString e ++ amp :: toString (e' :: params) := rfl

/-! ## Decoding what was encoded -/

theorem decode_cons {a : UInt8} (ha : a ≠ percent) (src : Bytes) : decode (a :: src) = copyChar a :: decode src := by
  match src with
  | [] => rfl
  | [b] => rfl
  | b :: c :: src => rw [decode, if_neg ha]

variable {b c : UInt8}

theorem decode_escape {v1 v2 : Nat} (hb : hexval b = some v1) (hc : hexval c = some v2) (src : Bytes) :
    decode (percent :: b :: c :: src) = UInt8.ofNat (v1 * 16 + v2) :: decode src := by
  rw [decode, if_pos rfl, hb, hc]

variable {n : Nat}

theorem hexval_hexDigit (hn : n < 16) : hexval (hexDigit n) = some n := by
  have h : ∀ n < 16, hexval (hexDigit n) = some n := by decide
  exact h n hn

theorem unreserved_ne (h : unreserved b = true) : b ≠ percent ∧ b ≠ plus ∧ b ≠ amp ∧ b ≠ equal ∧ b ≠ questionMark := by
  refine ⟨?_, ?_, ?_, ?_, ?_⟩ <;> rintro rfl <;> revert h <;> decide

theorem decode_encodeOctet (b : UInt8) (src : Bytes) : decode (encodeOctet b ++ src) = b :: decode src := by
  unfold encodeOctet
  by_cases hs : b = space
  · rw [if_pos hs, hs, singleton_append, decode_cons (by decide)]
    rfl
  · rw [if_neg hs, uriEncodeTbl]
    by_cases hu : unreserved b = true
    · obtain ⟨hpercent, hplus, -⟩ := unreserved_ne hu
      rw [if_pos hu]
      simp only [singleton_append]
      rw [decode_cons hpercent, copyChar, if_neg hplus]
    · have hb := b.toNat_lt
      rw [if_neg hu]
      simp only [cons_append, nil_append]
      rw [decode_escape (hexval_hexDigit (by omega)) (hexval_hexDigit (by omega))]
      have hval : b.toNat / 16 * 16 + b.toNat % 16 = b.toNat := by omega
      rw [hval, UInt8.ofNat_toNat]

theorem decode_encode (src : Bytes) : decode (encode src) = src := by
  induction src with
  | nil => rfl
  | cons b src ih => rw [encode, flatMap_cons, decode_encodeOctet, ← encode, ih]

variable {src : Bytes}

theorem encode_mem (hc : c ∈ encode src) : unreserved c = true ∨ c = percent ∨ c = plus := by
  have hdigit : ∀ n < 16, unreserved (hexDigit n) = true := by decide
  obtain ⟨b, -, hc⟩ := mem_flatMap.mp hc
  have hb := b.toNat_lt
  unfold encodeOctet uriEncodeTbl at hc
  by_cases hs : b = space
  · rw [if_pos hs] at hc
    exact Or.inr (Or.inr (mem_singleton.mp hc))
  · rw [if_neg hs] at hc
    by_cases hu : unreserved b = true
    · simp only [hu, if_true, mem_singleton] at hc
      rw [hc]
      exact Or.inl hu
    · simp only [hu, if_false, mem_cons, not_mem_nil, or_false, Bool.false_eq_true] at hc
      rcases hc with rfl | rfl | rfl
      · exact Or.inr (Or.inl rfl)
      · exact Or.inl (hdigit _ (by omega))
      · exact Or.inl (hdigit _ (by omega))

theorem encode_ne (hc : c ∈ encode src) : c ≠ amp ∧ c ≠ equal ∧ c ≠ questionMark := by
  rcases encode_mem hc with hu | rfl | rfl
  · exact (unreserved_ne hu).2.2
  · decide
  · decide

/-! ## Parsing what was written -/

variable {raw : Bytes}

theorem foldl_key (h : ∀ c ∈ raw, c ≠ amp ∧ c ≠ equal) (p : Parser) (hp : p.state = .key) :
    raw.foldl Parser.octet p = { p with key := p.key ++ raw } := by
  induction raw generalizing p with
  | nil => simp
  | cons c raw ih =>
    obtain ⟨hamp, hequal⟩ := h c mem_cons_self
    have hc : p.octet c = { p with key := p.key ++ [c] } := by
      rw [Parser.octet, if_neg hamp, if_neg hequal, hp]
    rw [foldl_cons, hc, ih (fun x hx => h x (mem_cons_of_mem _ hx)) { p with key := p.key ++ [c] } hp]
    simp

theorem foldl_value (h : ∀ c ∈ raw, c ≠ amp ∧ c ≠ equal) (p : Parser) (hp : p.state = .value) :
    raw.foldl Parser.octet p = { p with value := p.value ++ raw } := by
  induction raw generalizing p with
  | nil => simp
  | cons c raw ih =>
    obtain ⟨hamp, hequal⟩ := h c mem_cons_self
    have hc : p.octet c = { p with value := p.value ++ [c] } := by
      rw [Parser.octet, if_neg hamp, if_neg hequal, hp]
    rw [foldl_cons, hc, ih (fun x hx => h x (mem_cons_of_mem _ hx)) { p with value := p.value ++ [c] } hp]
    simp

def Parser.read (params : List ParamEntry) (e : ParamEntry) : Parser :=
  { state := if encode e.2 = [] then .equal else .value, key := encode e.1, value := encode e.2, params }

theorem foldl_entry (params : List ParamEntry) (e : ParamEntry) :
    (entryToString e).foldl Parser.octet { params } = Parser.read params e := by
  have hsep : ∀ src : Bytes, ∀ c ∈ encode src, c ≠ amp ∧ c ≠ equal := fun src c hc => ⟨(encode_ne hc).1, (encode_ne hc).2.1⟩
  -- a name that is empty leaves the parser where it is
  have hkey : ((encode e.1).foldl Parser.octet { params }).octet equal = { state := .equal, key := encode e.1, params } := by
    have hk := hsep e.1
    generalize encode e.1 = raw at hk ⊢
    cases raw with
    | nil => rfl
    | cons c raw =>
      obtain ⟨hamp, hequal⟩ := hk c mem_cons_self
      have hc : Parser.octet { params } c = { state := .key, key := [c], params } := by
        rw [Parser.octet, if_neg hamp, if_neg hequal]
      rw [foldl_cons, hc, foldl_key (fun x hx => hk x (mem_cons_of_mem _ hx)) _ rfl]
      rfl
  rw [entryToString, foldl_append, foldl_cons, hkey, Parser.read]
  have hv := hsep e.2
  generalize encode e.2 = raw at hv ⊢
  cases raw with
  | nil => rfl
  | cons c raw =>
    obtain ⟨hamp, hequal⟩ := hv c mem_cons_self
    have hc : Parser.octet { state := .equal, key := encode e.1, params } c =
        { state := .value, key := encode e.1, value := [c], params } := by
      rw [Parser.octet, if_neg hamp, if_neg hequal]
    rw [foldl_cons, hc, foldl_value (fun x hx => hv x (mem_cons_of_mem _ hx)) _ rfl]
    rfl

theorem read_append (params : List ParamEntry) (e : ParamEntry) :
    (Parser.read params e).append = { params := params ++ [e] } := by
  rw [Parser.append, Parser.read, decode_encode, decode_encode]

theorem read_amp (params : List ParamEntry) (e : ParamEntry) : (Parser.read params e).octet amp = { params := params ++ [e] } := by
  rw [← read_append, Parser.octet, if_pos rfl]
  by_cases hv : encode e.2 = [] <;> simp [Parser.read, hv]

theorem read_finish (params : List ParamEntry) (e : ParamEntry) : (Parser.read params e).finish = params ++ [e] := by
  have htail : (Parser.read params e).key ≠ [] ∨ (Parser.read params e).value ≠ [] ∨ (Parser.read params e).state = .equal := by
    by_cases hv : encode e.2 = []
    · exact Or.inr (Or.inr (if_pos hv))
    · exact Or.inr (Or.inl hv)
  rw [Parser.finish, if_pos htail, read_append]

theorem foldl_toString (params l : List ParamEntry) : ((toString l).foldl Parser.octet { params }).finish = params ++ l := by
  induction l generalizing params with
  | nil => simp [toString, Parser.finish]
  | cons e l ih =>
    cases l with
    | nil => rw [toString, foldl_entry, read_finish]
    | cons e' l =>
      rw [toString_cons, foldl_append, foldl_entry, foldl_cons, read_amp, ih, append_assoc, singleton_append]

theorem int32_of_lt (h : n < 2 ^ 31) : (int32 n).toNat = n := by
  have hn : int32 n = n := Int.bmod_eq_of_le (by omega) (by omega)
  rw [hn, Int.toNat_natCast]

variable {l : List ParamEntry}

theorem parse_questionMark (h : (toString l).length < 2 ^ 31) : parse (questionMark :: toString l) = l := by
  have hlen : (questionMark :: toString l).length - 1 = (toString l).length := rfl
  rw [parse, head?_cons, if_pos rfl, hlen, int32_of_lt h, drop_one, tail_cons, take_length, foldl_toString,
    nil_append]

def queryOctet (b : UInt8) : Bool := unreserved b || b = percent || b = amp || b = equal || b = plus

theorem encode_queryOctet (hc : c ∈ encode src) : queryOctet c = true := by
  rcases encode_mem hc with hu | rfl | rfl
  · rw [queryOctet, hu]
    rfl
  · decide
  · decide

theorem toString_queryOctet (hc : c ∈ toString l) : queryOctet c = true := by
  have hentry : ∀ e : ParamEntry, c ∈ entryToString e → queryOctet c = true := by
    intro e hc
    rcases mem_append.mp hc with hc | hc
    · exact encode_queryOctet hc
    · rcases mem_cons.mp hc with rfl | hc
      · decide
      · exact encode_queryOctet hc
  induction l with
  | nil => cases hc
  | cons e l ih =>
    cases l with
    | nil => exact hentry e hc
    | cons e' l =>
      rcases mem_append.mp hc with hc | hc
      · exact hentry e hc
      · rcases mem_cons.mp hc with rfl | hc
        · decide
        · exact ih hc

theorem queryOctet_ascii (hc : queryOctet c = true) : c.toNat < 0x80 := by
  have h : ∀ n < 256, queryOctet (UInt8.ofNat n) = true → n < 0x80 := by decide +kernel
  have hc' := h c.toNat c.toNat_lt
  rw [UInt8.ofNat_toNat] at hc'
  exact hc' hc

/-! ## Strings that are cut -/

/-- What a list takes at least, up to the last separator. -/
def weight (l : List ParamEntry) : Nat := (l.map fun e => e.1.length + e.2.length + 1).sum

def Parser.weight (p : Parser) : Nat := Url.weight p.params + p.key.length + p.value.length

end Aworker.Url
