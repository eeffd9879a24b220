/-
  Aworker.Encoding.TextDecoder — a non-fatal UTF-8 `TextDecoder` that is fed in chunks
  (lib/encoding.js: `TextDecoder.decode`; src/binding/internal/aworker_i18n.cc:
  `ConverterObject::Decode`).

  ICU's converter is a parameter (`Converter`): it keeps an incomplete sequence from one call
  to the next, and fails when its output does not fit. Around it, each call of `decode` decides
  for itself how much room the output gets (one unit for each byte), whether the output starts
  with a byte order mark, and that there is nothing to do for an empty input, the end of the
  stream included. A buffer that nothing was written to is searched for the mark as well:
  `stale` is what malloc left in its first unit.

  (1) `chunked_iff`: decoding in chunks gives the text of a fresh decoder that is given all bytes
      at once, and leaves a decoder like a fresh one, exactly if the bytes end with a sequence,
      every chunk completes at most as many units as it has bytes, none but the first that
      completes any starts with a mark, and no stale mark is met (`Whole`).
      `chunks_differ` has a stream for each way to fail.
-/

import Mathlib
import Aworker.Lib.Utf8
import Aworker.Fetch.Js

namespace Aworker.Encoding

open Aworker.Lib List
open Aworker.Fetch (bind_ok)

/-! ## The converter -/

/-- ICU's converter to UTF-16: `feed` is one byte, `start` a converter that was just opened or
    reset. -/
structure Converter where
  State : Type
  start : State
  feed : State → UInt8 → State × List UInt16
  /-- a sequence is incomplete -/
  pending : State → Bool
  pending_iff : ∀ s, pending s = false ↔ s = start
  /-- at most one unit for each byte, with one in reserve for what is incomplete -/
  fits : ∀ bytes, (feeds feed start bytes).2.length + (pending (feeds feed start bytes).1).toNat ≤ bytes.length
  answers : ∀ bytes, bytes ≠ [] → pending (feeds feed start bytes).1 = false → (feeds feed start bytes).2 ≠ []

variable (C : Converter)

def byteOrderMark : UInt16 := 0xFEFF

/-- `ucnv_toUnicode`; `none` is U_BUFFER_OVERFLOW_ERROR. -/
def Converter.toUnicode (s : C.State) (input : List UInt8) (limit : Nat) (flush : Bool) : Option (C.State × List UInt16) :=
  let out := (feeds C.feed s input).2 ++ if flush && C.pending (feeds C.feed s input).1 then [0xFFFD] else []
  if out.length ≤ limit then some ((feeds C.feed s input).1, out) else none

/-! ## The decoder -/

inductive Failure where
  | typeError (message : String)
  /-- the text is read from memory that nobody wrote -/
  | unspecified

/-- `ucnv_getMinCharSize` of UTF-8 -/
def minCharSize : Nat := 1

def converterDecode (s : C.State) (input : List UInt8) (stream : Bool) (stale : UInt16) : Except Failure (List UInt16 × C.State) :=
  match C.toUnicode s input (minCharSize * input.length) (!stream) with
  | none => .error (.typeError "ucnv_toUnicode failed(U_BUFFER_OVERFLOW_ERROR)")
  | some (s', out) =>
    let s' := if stream then s' else C.start
    match out with
    -- `string_length` becomes -1 when the stale unit is taken for a mark
    | [] => if stale = byteOrderMark then .error .unspecified else .ok ([], s')
    | u :: rest => .ok (if u = byteOrderMark then rest else u :: rest, s')

def decode (s : C.State) (input : List UInt8) (stream : Bool) (stale : UInt16) : Except Failure (List UInt16 × C.State) :=
  if input = [] then .ok ([], s) else converterDecode C s input stream stale

structure Chunk where
  bytes : List UInt8
  stale : UInt16 := 0

/-- `decode(chunk, { stream: true })` for each chunk. -/
def decodeChunks : C.State → List Chunk → Except Failure (List UInt16 × C.State)
  | s, [] => .ok ([], s)
  | s, c :: cs => do
    let (out, s') ← decode C s c.bytes true c.stale
    let (rest, s'') ← decodeChunks s' cs
    .ok (out ++ rest, s'')

/-- All chunks, then `decode()`. -/
def decodeStream (chunks : List Chunk) : Except Failure (List UInt16 × C.State) := do
  let (out, s) ← decodeChunks C C.start chunks
  let (last, s') ← decode C s [] false 0
  .ok (out ++ last, s')

/-- Like one call with all bytes, and then like a new decoder. -/
def Independent (chunks : List Chunk) : Prop :=
  ∀ stale, ∃ text, decodeStream C chunks = .ok (text, C.start) ∧
    decode C C.start (chunks.flatMap Chunk.bytes) false stale = .ok (text, C.start)

/-! ## What the chunks complete -/

def completed : C.State → List Chunk → List (Chunk × List UInt16)
  | _, [] => []
  | s, c :: cs => (c, (feeds C.feed s c.bytes).2) :: completed (feeds C.feed s c.bytes).1 cs

structure Whole (chunks : List Chunk) : Prop where
  complete : C.pending (feeds C.feed C.start (chunks.flatMap Chunk.bytes)).1 = false
  room : ∀ x ∈ completed C C.start chunks, x.2.length ≤ x.1.bytes.length
  clean : ∀ x ∈ completed C C.start chunks, x.1.bytes ≠ [] → x.2 = [] → x.1.stale ≠ byteOrderMark
  marks : ∀ units ∈ (((completed C C.start chunks).map Prod.snd).filter (· ≠ [])).tail, units.head? ≠ some byteOrderMark

def strip : List UInt16 → List UInt16
  | [] => []
  | u :: rest => if u = byteOrderMark then rest else u :: rest

variable {C}

theorem completed_flatten (s : C.State) (chunks : List Chunk) :
    ((completed C s chunks).map Prod.snd).flatten = (feeds C.feed s (chunks.flatMap Chunk.bytes)).2 := by
  induction chunks generalizing s with
  | nil => rfl
  | cons c cs ih => rw [completed, map_cons, flatten_cons, ih, flatMap_cons, feeds_append]

def written (C : Converter) (s : C.State) (input : List UInt8) (flush : Bool) : List UInt16 :=
  (feeds C.feed s input).2 ++ if flush && C.pending (feeds C.feed s input).1 then [0xFFFD] else []

variable {s : C.State} {r : List UInt16 × C.State}

/-- One call: it returns exactly if the output fits and no stale mark is met. -/
theorem converterDecode_ok {input : List UInt8} {stream : Bool} {stale : UInt16} :
    converterDecode C s input stream stale = .ok r ↔
      ((written C s input (!stream)).length ≤ input.length ∧ (written C s input (!stream) = [] → stale ≠ byteOrderMark)) ∧
      (strip (written C s input (!stream)), if stream then (feeds C.feed s input).1 else C.start) = r := by
  have hcall : C.toUnicode s input (minCharSize * input.length) (!stream) =
      if (written C s input (!stream)).length ≤ input.length then some ((feeds C.feed s input).1, written C s input (!stream)) else none := by
    rw [minCharSize, Nat.one_mul]
    rfl
  rw [converterDecode, hcall]
  by_cases hroom : (written C s input (!stream)).length ≤ input.length
  · rw [if_pos hroom]
    cases hout : written C s input (!stream) with
    | nil =>
      by_cases hstale : stale = byteOrderMark
      · simp [hstale]
      · simp [hstale, strip]
    | cons u rest => simp [strip, ← hout, hroom, hout ▸ cons_ne_nil u rest]
  · simp [hroom]

theorem written_stream (s : C.State) (input : List UInt8) : written C s input (!true) = (feeds C.feed s input).2 :=
  append_nil _

theorem decode_chunk {c : Chunk} : decode C s c.bytes true c.stale = .ok r ↔
      ((feeds C.feed s c.bytes).2.length ≤ c.bytes.length ∧
        (c.bytes ≠ [] → (feeds C.feed s c.bytes).2 = [] → c.stale ≠ byteOrderMark)) ∧
      (strip (feeds C.feed s c.bytes).2, (feeds C.feed s c.bytes).1) = r := by
  unfold decode
  by_cases hempty : c.bytes = []
  · simp [hempty, strip]
  · rw [if_neg hempty, converterDecode_ok, written_stream]
    simp [hempty]

variable {chunks : List Chunk}

theorem decodeChunks_ok : decodeChunks C s chunks = .ok r ↔
      ((∀ x ∈ completed C s chunks, x.2.length ≤ x.1.bytes.length) ∧
        ∀ x ∈ completed C s chunks, x.1.bytes ≠ [] → x.2 = [] → x.1.stale ≠ byteOrderMark) ∧
      (((completed C s chunks).map Prod.snd).flatMap strip, (feeds C.feed s (chunks.flatMap Chunk.bytes)).1) = r := by
  induction chunks generalizing s r with
  | nil => simp [decodeChunks, completed]
  | cons c cs ih =>
    rw [decodeChunks, bind_ok, completed, forall_mem_cons, forall_mem_cons, map_cons, flatMap_cons,
      flatMap_cons, feeds_append]
    constructor
    · rintro ⟨a, hc, hcs⟩
      obtain ⟨⟨hroom, hclean⟩, rfl⟩ := decode_chunk.mp hc
      obtain ⟨b, hcs, hr⟩ := bind_ok.mp hcs
      obtain ⟨⟨hrooms, hcleans⟩, rfl⟩ := ih.mp hcs
      exact ⟨⟨⟨hroom, hrooms⟩, hclean, hcleans⟩, Except.ok.inj hr⟩
    · rintro ⟨⟨⟨hroom, hrooms⟩, hclean, hcleans⟩, rfl⟩
      exact ⟨_, decode_chunk.mpr ⟨⟨hroom, hclean⟩, rfl⟩, bind_ok.mpr ⟨_, ih.mpr ⟨⟨hrooms, hcleans⟩, rfl⟩, rfl⟩⟩

/-! ## Marks -/

theorem strip_length_le (units : List UInt16) : (strip units).length ≤ units.length := by
  cases units with
  | nil => exact le_rfl
  | cons u rest =>
    rw [strip]
    split <;> simp

theorem strip_eq_iff (units : List UInt16) : strip units = units ↔ units.head? ≠ some byteOrderMark := by
  cases units with
  | nil => simp [strip]
  | cons u rest =>
    rw [strip]
    by_cases hu : u = byteOrderMark
    · simp [hu]
    · simp [hu]

theorem flatMap_strip_eq (l : List (List UInt16)) : l.flatMap strip = l.flatten ↔ ∀ units ∈ l, units.head? ≠ some byteOrderMark := by
  have hle : ∀ l : List (List UInt16), (l.flatMap strip).length ≤ l.flatten.length := by
    intro l
    induction l with
    | nil => exact le_rfl
    | cons x l ih =>
      have hx := strip_length_le x
      simp only [flatMap_cons, flatten_cons, length_append]
      omega
  induction l with
  | nil => simp
  | cons x l ih =>
    rw [flatMap_cons, flatten_cons, forall_mem_cons]
    refine Iff.trans ?_ (and_congr (strip_eq_iff x) ih)
    constructor
    · intro heq
      -- neither part can make up for what the other loses
      have hlen := congrArg List.length heq
      rw [length_append, length_append] at hlen
      have hx := strip_length_le x
      have hl := hle l
      exact append_inj heq (by omega)
    · rintro ⟨hx, hl⟩
      rw [hx, hl]

theorem strip_append {a : List UInt16} (ha : a ≠ []) (b : List UInt16) : strip (a ++ b) = strip a ++ b := by
  obtain ⟨u, rest, rfl⟩ := exists_cons_of_ne_nil ha
  rw [cons_append, strip, strip]
  split <;> rfl

theorem flatMap_strip_eq_strip (l : List (List UInt16)) :
    l.flatMap strip = strip l.flatten ↔ ∀ units ∈ (l.filter (· ≠ [])).tail, units.head? ≠ some byteOrderMark := by
  induction l with
  | nil => simp [strip]
  | cons x l ih =>
    by_cases hx : x = []
    · rw [hx, flatMap_cons, flatten_cons, filter_cons_of_neg (by simp)]
      exact ih
    · rw [flatMap_cons, flatten_cons, strip_append hx, append_cancel_left_eq, flatMap_strip_eq,
        filter_cons_of_pos (by simpa using hx), tail_cons]
      constructor
      · intro h units hu
        exact h units (mem_of_mem_filter hu)
      · intro h units hu
        by_cases hempty : units = []
        · simp [hempty]
        · exact h units (mem_filter.mpr ⟨hu, by simpa using hempty⟩)

/-! ## Chunked and whole -/

theorem decodeStream_ok : decodeStream C chunks = .ok r ↔ decodeChunks C C.start chunks = .ok r := by
  rw [decodeStream, bind_ok]
  constructor
  · rintro ⟨a, ha, hr⟩
    rw [ha]
    simpa [decode, bind, Except.bind] using hr
  · intro h
    refine ⟨r, h, ?_⟩
    simp [decode, bind, Except.bind]

/-- A call of a fresh decoder that does not stream always has room enough, and is like the
    next call of a fresh one. -/
theorem decode_flush (C : Converter) (bytes : List UInt8) (stale : UInt16) :
    decode C C.start bytes false stale = .ok (strip (written C C.start bytes true), C.start) := by
  unfold decode
  by_cases hempty : bytes = []
  · have hpending : C.pending C.start = false := (C.pending_iff _).mpr rfl
    rw [if_pos hempty, hempty]
    simp [written, hpending, strip]
  · have hfits := C.fits bytes
    rw [if_neg hempty, converterDecode_ok]
    refine ⟨?_, rfl⟩
    show (written C C.start bytes true).length ≤ bytes.length ∧ (written C C.start bytes true = [] → stale ≠ byteOrderMark)
    unfold written
    cases hp : C.pending (feeds C.feed C.start bytes).1 with
    | true =>
      rw [hp] at hfits
      exact ⟨by simpa using hfits, by simp⟩
    | false =>
      rw [hp] at hfits
      exact ⟨by simpa using hfits, fun hnone => absurd (by simpa using hnone) (C.answers bytes hempty hp)⟩

theorem decode_whole {bytes : List UInt8} (stale : UInt16) (hc : C.pending (feeds C.feed C.start bytes).1 = false) :
    decode C C.start bytes false stale = .ok (strip (feeds C.feed C.start bytes).2, C.start) := by
  have hwritten : written C C.start bytes true = (feeds C.feed C.start bytes).2 := by
    rw [written, hc]
    exact append_nil _
  rw [decode_flush, hwritten]

theorem chunked_iff (C : Converter) (chunks : List Chunk) : Independent C chunks ↔ Whole C chunks := by
  constructor
  · intro h
    obtain ⟨text, hstream, hwhole⟩ := h 0
    rw [decodeStream_ok, decodeChunks_ok] at hstream
    obtain ⟨⟨hroom, hclean⟩, heq⟩ := hstream
    obtain ⟨rfl, hstate⟩ := Prod.mk.inj heq
    have hc := (C.pending_iff _).mpr hstate
    rw [decode_whole 0 hc, ← completed_flatten] at hwhole
    have htext := (Prod.mk.inj (Except.ok.inj hwhole)).1
    exact ⟨hc, hroom, hclean, (flatMap_strip_eq_strip _).mp htext.symm⟩
  · intro h stale
    refine ⟨_, ?_, decode_whole stale h.complete⟩
    rw [decodeStream_ok, decodeChunks_ok, (flatMap_strip_eq_strip _).mpr h.marks, completed_flatten]
    exact ⟨⟨h.room, h.clean⟩, congrArg _ ((C.pending_iff _).mp h.complete)⟩

/-! ## UTF-8 -/

theorem feeds_units (s : Option Utf8.Incomplete) (bytes : List UInt8) :
    feeds (fun s b => ((Utf8.feed s b).1, (Utf8.feed s b).2.flatMap Utf8.units)) s bytes =
      ((feeds Utf8.feed s bytes).1, (feeds Utf8.feed s bytes).2.flatMap Utf8.units) := by
  induction bytes generalizing s with
  | nil => rfl
  | cons b bytes ih => rw [feeds_cons, ih, feeds_cons, flatMap_append]

def utf8 : Converter where
  State := Option Utf8.Incomplete
  start := none
  feed s b := ((Utf8.feed s b).1, (Utf8.feed s b).2.flatMap Utf8.units)
  pending := Option.isSome
  pending_iff s := by cases s <;> simp
  fits bytes := by
    have hle := Utf8.units_add_seen_le none bytes
    rw [feeds_units]
    cases hs : (feeds Utf8.feed none bytes).1 <;> simp [hs] at hle ⊢ <;> omega
  answers bytes hne hc := by
    rw [feeds_units] at hc ⊢
    exact Utf8.feeds_answers hne (by simpa using hc)

def withoutMark : List Char → List Char
  | [] => []
  | c :: rest => if c.toNat = 0xFEFF then rest else c :: rest

/-- `new TextDecoder().decode(bytes)` -/
def decodeText (bytes : List UInt8) : List Char := withoutMark (Utf8.decode bytes)

/-- Sequences are cut in the middle, and a chunk completes none. -/
def cutChunks : List Chunk :=
  [{ bytes := [0xEF, 0xBB, 0xBF, 0xF0, 0x9F] }, { bytes := [] }, { bytes := [0x98], stale := 7 }, { bytes := [0x80, 0x41, 0xC3, 0xA9] }]

theorem cutChunks_independent : Independent utf8 cutChunks := by
  refine (chunked_iff utf8 cutChunks).mpr ⟨?_, ?_, ?_, ?_⟩
  · decide
  · decide
  · decide
  · decide

/-- The end of the stream is not a call of the converter; the last byte of four brings two
    units; each chunk loses its mark. -/
theorem chunks_differ :
    (decodeStream utf8 [{ bytes := [0xC3] }]).map Prod.fst = .ok [] ∧
      (decode utf8 utf8.start [0xC3] false 0).map Prod.fst = .ok [0xFFFD] ∧
    decodeStream utf8 [{ bytes := [0xF0, 0x9F, 0x98] }, { bytes := [0x80] }] =
      .error (.typeError "ucnv_toUnicode failed(U_BUFFER_OVERFLOW_ERROR)") ∧
      decode utf8 utf8.start [0xF0, 0x9F, 0x98, 0x80] false 0 = .ok ([0xD83D, 0xDE00], utf8.start) ∧
    decodeStream utf8 [{ bytes := [0xEF, 0xBB, 0xBF, 0x41] }, { bytes := [0xEF, 0xBB, 0xBF, 0x42] }] = .ok ([0x41, 0x42], utf8.start) ∧
      decode utf8 utf8.start [0xEF, 0xBB, 0xBF, 0x41, 0xEF, 0xBB, 0xBF, 0x42] false 0 = .ok ([0x41, 0xFEFF, 0x42], utf8.start) :=
  ⟨rfl, rfl, rfl, rfl, rfl, rfl⟩

end Aworker.Encoding
