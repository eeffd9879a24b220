/-
  Aworker.Fetch.ArrayBuffer — reading the body of a response (lib/fetch/body_helper.js:
  `GrowableBuffer.grow`, `bufferFromStream`; lib/fetch/body.js: `Response`, `Body.arrayBuffer`).

  The `content-length` of a response is turned into a number and handed to the buffer before
  anything is read, so that it has room. The header may hold any text.

  Main result: `arrayBuffer_iff`.
  Trace: `hint_throws`.
-/

import Mathlib
import Aworker.Lib.Utf8
import Aworker.Fetch.GrowableBuffer
import Aworker.Fetch.Headers

namespace Aworker.Fetch

open Aworker.Lib List

/-! ## Numbers from texts -/

namespace Shared.Num

/-- The double next to `n / d`, of two the even one. -/
def round (negative : Bool) (n d : Nat) : Num :=
  -- `2 ^ e ≤ n / d < 2 ^ (e + 1)`, and `2 ^ u` is the distance of the doubles there
  let k : Int := (n.log2 : Int) - d.log2
  let e : Int := if d * 2 ^ k.toNat ≤ n * 2 ^ (-k).toNat then k else k - 1
  let u : Int := max (e - 52) (-1074)
  let n := n * 2 ^ (-u).toNat
  let d := d * 2 ^ u.toNat
  let q := if d < 2 * (n % d) ∨ (2 * (n % d) = d ∧ n / d % 2 = 1) then n / d + 1 else n / d
  if 2 ^ 1024 ≤ q * 2 ^ u.toNat then .infinite negative
  else .finite ⟨(if negative then -1 else 1) * (q * 2 ^ u.toNat : Nat), (-u).toNat⟩

def digitOf (c : Char) : Nat :=
  if c.isDigit then c.toNat - 48
  else if 'a' ≤ c ∧ c ≤ 'f' then c.toNat - 87
  else if 'A' ≤ c ∧ c ≤ 'F' then c.toNat - 55
  else 16

def digits (base : Nat) (t : Text) : Option Nat :=
  if t.all (digitOf · < base) then some (t.foldl (fun n c => base * n + digitOf c) 0) else none

/-- `StrUnsignedDecimalLiteral`, and what stands before it. -/
def decimal (negative : Bool) (t : Text) : Num :=
  if t = "Infinity".toList then .infinite negative
  else
    let isE (c : Char) : Bool := c = 'e' || c = 'E'
    let mantissa := t.takeWhile (!isE ·)
    let whole := mantissa.takeWhile (· != '.')
    let fraction := (mantissa.dropWhile (· != '.')).drop 1
    let exponent : Option Int := match t.dropWhile (!isE ·) with
      | [] => some 0
      | _ :: '-' :: c :: rest => (digits 10 (c :: rest)).map fun n => -(n : Int)
      | _ :: '+' :: c :: rest => (digits 10 (c :: rest)).map Int.ofNat
      | _ :: c :: rest => (digits 10 (c :: rest)).map Int.ofNat
      | [_] => none
    match digits 10 (whole ++ fraction), exponent with
    | some n, some e =>
      if whole ++ fraction = [] then .nan
      else
        let e := e - fraction.length
        round negative (n * 10 ^ e.toNat) (10 ^ (-e).toNat)
    | _, _ => .nan

/-- The digits after `0x`, `0o` and `0b`. -/
def literal (base : Nat) (t : Text) : Num :=
  if t = [] then .nan
  else match digits base t with
    | none => .nan
    | some n => round false n 1

/-- `Number(text)` -/
def ofText (t : Text) : Num :=
  match trimmed t with
  | [] => .finite ⟨0, 0⟩
  | '0' :: 'x' :: rest | '0' :: 'X' :: rest => literal 16 rest
  | '0' :: 'o' :: rest | '0' :: 'O' :: rest => literal 8 rest
  | '0' :: 'b' :: rest | '0' :: 'B' :: rest => literal 2 rest
  | '-' :: rest => decimal true rest
  | '+' :: rest => decimal false rest
  | t => decimal false t

/-- Everything but `NaN` and zero. -/
def truthy : Num → Bool
  | .nan => false
  | .infinite _ => true
  | .finite x => x.num ≠ 0

end Shared.Num

/-! ## Room for a number of bytes -/

inductive ReadError where
  /-- `Buffer.grow: negative count` -/
  | negativeCount
  | buffer (e : BufferError)
  /-- `unhandled type on stream read` -/
  | unhandled
  deriving DecidableEq

variable {x : JsNumber} {n : Nat}

namespace JsNumber

/-- The number of elements that an index of the language stands for. -/
def toIndex (x : JsNumber) : Nat := (x.num / 2 ^ x.exp).toNat

def add (x : JsNumber) (n : Nat) : JsNumber := ⟨x.num + n * 2 ^ x.exp, x.exp⟩

def minInt (x : JsNumber) (n : Int) : JsNumber := if x.gtInt n then ofInt n else x

theorem toIndex_le (h : x.gtInt n = false) : x.toIndex ≤ n := by
  simp only [gtInt, decide_eq_false_iff_not, not_lt] at h
  have hle := Int.ediv_le_ediv x.pow_pos h
  rw [Int.mul_ediv_cancel _ x.pow_pos.ne'] at hle
  unfold toIndex
  omega

end JsNumber

namespace GrowableBuffer

/-- `#reslice` with a number that need not be whole. -/
def resliceTo (buffer : Bytes) (len : JsNumber) : Except BufferError GrowableBuffer :=
  if h : len.gtInt buffer.length = false then .ok ⟨buffer, len.toIndex, JsNumber.toIndex_le h⟩ else .error .assertion

/-- `#grow` with a number that need not be whole. No sum is rounded: the buffer is new. -/
def growTo (g : GrowableBuffer) (num : JsNumber) : Except BufferError (GrowableBuffer × Nat) :=
  if num.gtInt (g.capacity - g.len) = false then do
    let g' ← resliceTo g.buffer (num.add g.len)
    .ok (g', g.len)
  else do
    let buffer ←
      if num.gtInt (g.capacity / 2 - g.len) = false then .ok (copyBytes g.bytes g.bytes 0 ++ g.buffer.drop g.len)
      else if (num.add g.capacity).gtInt maxSize then .error .maximumSize
      else .ok (copyBytes g.bytes (List.replicate ((num.add (2 * g.capacity)).minInt maxSize).toIndex 0) 0)
    let g' ← resliceTo buffer ((num.add g.len).minInt maxSize)
    .ok (g', g.len)

/-- `grow(n)` -/
def growBy (g : GrowableBuffer) : Shared.Num → Except ReadError GrowableBuffer
  | .nan => .error (.buffer .assertion)
  | .infinite true => .error .negativeCount
  | .infinite false => .error (.buffer .maximumSize)
  | .finite n =>
    if n.ltInt 0 then .error .negativeCount
    else (g.growTo n >>= fun r => reslice r.1.buffer r.2).mapError .buffer

end GrowableBuffer

/-! ## Reading -/

inductive Chunk where
  | string (value : Text)
  | arrayBuffer (value : Bytes)
  | uint8Array (value : Bytes)
  /-- nothing, `false` or the like -/
  | falsy
  | other
  deriving DecidableEq

def Chunk.bytes? : Chunk → Option Bytes
  | .string value => some (Utf8.encode value)
  | .arrayBuffer value => some value
  | .uint8Array value => some value
  | .falsy => none
  | .other => none

def writeChunk (buffer : GrowableBuffer) : Chunk → Except ReadError GrowableBuffer
  | .string value => (buffer.writeSync (Utf8.encode value)).mapError .buffer
  | .arrayBuffer value => (buffer.writeSync value).mapError .buffer
  | .uint8Array value => (buffer.writeSync value).mapError .buffer
  | .falsy => .ok buffer
  | .other => .error .unhandled

def readAll (buffer : GrowableBuffer) : List Chunk → Except ReadError GrowableBuffer
  | [] => .ok buffer
  | chunk :: chunks => do
    let buffer ← writeChunk buffer chunk
    readAll buffer chunks

def bufferFromStream (chunks : List Chunk) (size : Option Shared.Num) : Except ReadError Bytes := do
  let buffer ← match size with
    | none => .ok GrowableBuffer.new
    | some n => if n.truthy then GrowableBuffer.new.growBy n else .ok GrowableBuffer.new
  let buffer ← readAll buffer chunks
  .ok buffer.bytes

inductive BodyKind where
  | none
  | string (value : Text)
  | arrayBuffer (value : Bytes)
  | stream (chunks : List Chunk)

def contentLength : Text := "content-length".toList

/-- `Number(headers.get('content-length')) || undefined`; `Number(null)` is zero. -/
def responseSize (headers : HeaderList) : Option Shared.Num :=
  (dataGet headers contentLength).bind fun value => if (Shared.Num.ofText value).truthy then some (Shared.Num.ofText value) else none

/-- `new Response(body, { headers }).arrayBuffer()` -/
def arrayBuffer (body : BodyKind) (headers : HeaderList) : Except ReadError Bytes :=
  match body with
  | .stream chunks => bufferFromStream chunks (responseSize headers)
  | .none => .ok []
  | .string value => .ok (Utf8.encode value)
  | .arrayBuffer value => .ok value

/-! ## What the hint does -/

/-- A hint that leaves room for `n` bytes. -/
inductive HintIs : Option Shared.Num → Nat → Prop where
  | absent : HintIs none 0
  | whole {x : JsNumber} {n : Nat} (pos : 0 < n) (le : n ≤ maxSize) (eq : x.num = n * 2 ^ x.exp) : HintIs (some (.finite x)) n

instance HintIs.decidable : (size : Option Shared.Num) → (n : Nat) → Decidable (HintIs size n)
  | none, 0 => isTrue .absent
  | none, n + 1 => isFalse (by rintro ⟨⟩)
  | some (.finite x), n =>
    if h : 0 < n ∧ n ≤ maxSize ∧ x.num = n * 2 ^ x.exp then isTrue (.whole h.1 h.2.1 h.2.2)
    else isFalse fun | .whole pos le eq => h ⟨pos, le, eq⟩
  | some .nan, _ => isFalse (by rintro ⟨⟩)
  | some (.infinite _), _ => isFalse (by rintro ⟨⟩)

theorem HintIs.unique {size : Option Shared.Num} {m : Nat} (h : HintIs size n) (h' : HintIs size m) : n = m := by
  cases h with
  | absent => cases h'; rfl
  | @whole x n _ _ hn =>
    cases h' with
    | whole _ _ hm => exact_mod_cast mul_right_cancel₀ x.pow_pos.ne' (hn.symm.trans hm)

theorem gtInt_iff {n : Int} : x.gtInt n = true ↔ n * 2 ^ x.exp < x.num := by simp [JsNumber.gtInt]

theorem gtInt_false_iff {n : Int} : x.gtInt n = false ↔ x.num ≤ n * 2 ^ x.exp := by simp [JsNumber.gtInt]

theorem toIndex_whole (h : x.num = n * 2 ^ x.exp) : x.toIndex = n := by
  rw [JsNumber.toIndex, h, Int.mul_ediv_cancel _ x.pow_pos.ne', Int.toNat_natCast]

namespace GrowableBuffer

theorem add_zero (x : JsNumber) : x.add 0 = x := by simp [JsNumber.add]

theorem minInt_self (h : x.gtInt maxSize = false) : x.minInt maxSize = x := if_neg (by rw [h]; exact Bool.false_ne_true)

theorem growTo_new (hpos : 0 < x.num) : new.growTo x = if x.gtInt maxSize then .error .maximumSize
      else resliceTo (List.replicate x.toIndex 0) x >>= fun g' => .ok (g', 0) := by
  have hzero : x.gtInt 0 = true := gtInt_iff.mpr (by rwa [zero_mul])
  have hcopy (l : Bytes) : copyBytes [] l 0 = l := by simp [copyBytes]
  have hfit : ¬x.gtInt ((new.capacity : Int) - (new.len : Int)) = false := by
    show ¬x.gtInt 0 = false
    rw [hzero]
    exact Bool.noConfusion
  have hslide : ¬x.gtInt ((new.capacity : Int) / 2 - (new.len : Int)) = false := hfit
  rw [growTo, if_neg hfit, if_neg hslide]
  show (if (x.add 0).gtInt maxSize then _ else _) = _
  rw [add_zero]
  by_cases hmax : x.gtInt maxSize = true
  · rw [if_pos hmax, if_pos hmax]
    rfl
  · have hmin := minInt_self (Bool.eq_false_of_not_eq_true hmax)
    rw [if_neg hmax, if_neg hmax]
    show (resliceTo (copyBytes [] (List.replicate ((x.add (2 * 0)).minInt maxSize).toIndex 0) 0) ((x.add 0).minInt maxSize) >>= _) = _
    rw [hcopy, Nat.mul_zero, add_zero, hmin]
    rfl

theorem resliceTo_whole (h : x.num = n * 2 ^ x.exp) :
    resliceTo (List.replicate x.toIndex 0) x = .ok ⟨List.replicate n 0, n, by rw [length_replicate]⟩ := by
  have hle : x.gtInt ((List.replicate x.toIndex (0 : UInt8)).length : Int) = false := by
    rw [length_replicate, toIndex_whole h, gtInt_false_iff, h]
  rw [resliceTo, dif_pos hle]
  simp only [toIndex_whole h]

theorem resliceTo_fraction (hpos : 0 < x.num) (h : ∀ n : Nat, x.num ≠ n * 2 ^ x.exp) :
    resliceTo (List.replicate x.toIndex 0) x = .error .assertion := by
  have hindex : ((x.toIndex : Nat) : Int) = x.num / 2 ^ x.exp := Int.toNat_of_nonneg (Int.ediv_nonneg hpos.le x.pow_pos.le)
  refine dif_neg fun hle => ?_
  rw [length_replicate, gtInt_false_iff, hindex] at hle
  refine h x.toIndex (le_antisymm (hindex ▸ hle) ?_)
  rw [hindex]
  exact Int.ediv_mul_le _ x.pow_pos.ne'

theorem growBy_new (size : Shared.Num) (ht : size.truthy = true) :
    (∃ n g, HintIs (some size) n ∧ new.growBy size = .ok g ∧ g.bytes = [] ∧ g.len = 0 ∧ g.capacity = n) ∨
      (∀ n, ¬HintIs (some size) n) ∧ ∃ e, new.growBy size = .error e := by
  cases size with
  | nan => cases ht
  | infinite negative => exact Or.inr ⟨by rintro _ ⟨⟩, by cases negative <;> exact ⟨_, rfl⟩⟩
  | finite x =>
    have hne : x.num ≠ 0 := by simpa [Shared.Num.truthy] using ht
    by_cases hneg : x.ltInt 0 = true
    · refine Or.inr ⟨fun n h => ?_, _, if_pos hneg⟩
      obtain _ | ⟨-, -, hx⟩ := h
      simp only [JsNumber.ltInt, zero_mul, decide_eq_true_eq, hx] at hneg
      exact absurd hneg (not_lt.mpr (by positivity))
    · have hpos : 0 < x.num := by
        simp only [JsNumber.ltInt, zero_mul, decide_eq_true_eq] at hneg
        omega
      rw [growBy, if_neg hneg, growTo_new hpos]
      by_cases hmax : x.gtInt maxSize = true
      · refine Or.inr ⟨fun n h => ?_, _, by rw [if_pos hmax]; rfl⟩
        obtain _ | ⟨-, hle, hx⟩ := h
        rw [gtInt_iff, hx, mul_lt_mul_iff_left₀ x.pow_pos] at hmax
        omega
      · rw [if_neg hmax]
        by_cases hwhole : ∃ n : Nat, x.num = n * 2 ^ x.exp
        · obtain ⟨n, hx⟩ := hwhole
          refine Or.inl ⟨n, ⟨List.replicate n 0, 0, Nat.zero_le _⟩, .whole ?_ ?_ hx, ?_, rfl, rfl, length_replicate ..⟩
          · refine Nat.pos_of_ne_zero fun h0 => hne ?_
            rw [hx, h0, Nat.cast_zero, zero_mul]
          · rw [gtInt_iff, hx, mul_lt_mul_iff_left₀ x.pow_pos] at hmax
            omega
          · rw [resliceTo_whole hx]
            show (reslice (List.replicate n 0) 0).mapError ReadError.buffer = _
            rw [reslice_ok (Nat.zero_le _)]
            rfl
        · rw [resliceTo_fraction hpos fun n hx => hwhole ⟨n, hx⟩]
          refine Or.inr ⟨fun n h => ?_, _, rfl⟩
          obtain _ | ⟨-, -, hx⟩ := h
          exact hwhole ⟨n, hx⟩

end GrowableBuffer

/-! ## What the chunks do -/

/-- Each chunk finds room, or there may be a larger buffer: twice the old one and the chunk. -/
def Fits (capacity len : Nat) : List Nat → Prop
  | [] => True
  | n :: sizes =>
    (len + n ≤ capacity ∧ Fits capacity (len + n) sizes) ∨
      (capacity < len + n ∧ capacity + n ≤ maxSize ∧ Fits (min (2 * capacity + n) maxSize) (len + n) sizes)

def Chunk.bytes (c : Chunk) : Bytes := c.bytes?.getD []

variable {g : GrowableBuffer} {c : Chunk} {chunks : List Chunk}

theorem writeChunk_eq (h : c.bytes? ≠ none) : writeChunk g c = (g.writeSync c.bytes).mapError .buffer := by
  cases c with
  | string value => rfl
  | arrayBuffer value => rfl
  | uint8Array value => rfl
  | falsy => exact absurd rfl h
  | other => exact absurd rfl h

theorem readAll_iff (h : ∀ c ∈ chunks, c.bytes? ≠ none) :
    (∃ g', readAll g chunks = .ok g' ∧ g'.bytes = g.bytes ++ chunks.flatMap Chunk.bytes) ↔
      Fits g.capacity g.len (chunks.map fun c => c.bytes.length) := by
  induction chunks generalizing g with
  | nil => simp [readAll, Fits]
  | cons c chunks ih =>
    obtain ⟨hc, hrest⟩ := forall_mem_cons.mp h
    rw [readAll, writeChunk_eq hc, map_cons, Fits]
    by_cases hroom : g.HasRoom c.bytes.length
    · obtain ⟨g1, hwrite, hbytes, hcap⟩ := GrowableBuffer.writeSync_ok hroom
      have hlen : g1.len = g.len + c.bytes.length := by
        rw [← g1.bytes_length, hbytes, length_append, g.bytes_length]
      have hgoal : (∃ g', readAll g1 chunks = .ok g' ∧ g'.bytes = g.bytes ++ (c :: chunks).flatMap Chunk.bytes) ↔
          Fits (g.grown c.bytes.length) (g.len + c.bytes.length) (chunks.map fun c => c.bytes.length) := by
        rw [← hcap, ← hlen, ← ih hrest, hbytes, flatMap_cons, append_assoc]
      rw [hwrite]
      refine hgoal.trans ?_
      unfold GrowableBuffer.grown
      by_cases hfit : g.len + c.bytes.length ≤ g.capacity
      · simp [hfit, Nat.not_lt.mpr hfit]
      · have hmax : g.capacity + c.bytes.length ≤ maxSize := hroom.resolve_left hfit
        simp [hfit, Nat.lt_of_not_le hfit, hmax]
    · obtain ⟨hfit, hmax⟩ := not_or.mp hroom
      rw [GrowableBuffer.writeSync_error hroom]
      refine iff_of_false ?_ ?_
      · rintro ⟨g', he, -⟩
        cases he
      · rintro (⟨hle, -⟩ | ⟨-, hle, -⟩)
        · exact hfit hle
        · exact hmax hle

/-- Below `2 ^ 31` bytes there is always room, whatever the buffer was made for. -/
theorem fits_of_lt {sizes : List Nat} {capacity len : Nat} (h : len + sizes.sum < 2 ^ 31) : Fits capacity len sizes := by
  induction sizes generalizing capacity len with
  | nil => trivial
  | cons n sizes ih =>
    rw [sum_cons] at h
    by_cases hfit : len + n ≤ capacity
    · exact Or.inl ⟨hfit, ih (by omega)⟩
    · refine Or.inr ⟨Nat.lt_of_not_le hfit, ?_, ih (by omega)⟩
      unfold maxSize
      omega

theorem responseSize_truthy {headers : HeaderList} {size : Shared.Num} (h : responseSize headers = some size) : size.truthy = true := by
  obtain ⟨value, -, hvalue⟩ := Option.bind_eq_some_iff.mp h
  split at hvalue
  · rename_i ht
    exact Option.some.inj hvalue ▸ ht
  · cases hvalue

theorem bytes_of_readAll (h : g.bytes = []) (out : Bytes) :
    (readAll g chunks >>= fun g' => Except.ok g'.bytes) = .ok out ↔ ∃ g', readAll g chunks = .ok g' ∧ g'.bytes = g.bytes ++ out := by
  rw [bind_ok, h]
  simp only [Except.ok.injEq, nil_append]

/-- Whether the chunks come back. -/
theorem arrayBuffer_iff (headers : HeaderList) (chunks : List Chunk) (hc : ∀ c ∈ chunks, c.bytes? ≠ none) :
    arrayBuffer (.stream chunks) headers = .ok (chunks.flatMap Chunk.bytes) ↔
      ∃ n, HintIs (responseSize headers) n ∧ Fits n 0 (chunks.map fun c => c.bytes.length) := by
  show bufferFromStream chunks (responseSize headers) = _ ↔ _
  cases hsize : responseSize headers with
  | none =>
    refine ((bytes_of_readAll rfl _).trans (readAll_iff hc)).trans ?_
    refine ⟨fun h => ⟨0, .absent, h⟩, fun ⟨n, hn, h⟩ => ?_⟩
    cases hn
    exact h
  | some size =>
    have ht := responseSize_truthy hsize
    rw [bufferFromStream]
    simp only [ht, if_true]
    rcases GrowableBuffer.growBy_new size ht with ⟨n, g, hn, hg, hbytes, hlen, hcap⟩ | ⟨hno, e, he⟩
    · rw [hg]
      refine ((bytes_of_readAll hbytes _).trans (readAll_iff hc)).trans ?_
      rw [hlen, hcap]
      refine ⟨fun h => ⟨n, hn, h⟩, fun ⟨m, hm, h⟩ => ?_⟩
      obtain rfl := HintIs.unique hn hm
      exact h
    · rw [he]
      refine iff_of_false (fun h => ?_) fun ⟨n, hn, _⟩ => hno n hn
      cases h

/-! ## Traces -/

def lengthHeader (value : String) : HeaderList := [(contentLength, value.toList)]

def sampleChunks : List Chunk := [.string ['é'], .uint8Array [1, 2], .arrayBuffer []]

/-- A hint that is too small, and one that is no number. -/
theorem sample_read :
    arrayBuffer (.stream sampleChunks) (lengthHeader "3") = .ok [0xc3, 0xa9, 1, 2] ∧
      arrayBuffer (.stream sampleChunks) (lengthHeader "3, 3") = .ok [0xc3, 0xa9, 1, 2] := by
  have hc : ∀ c ∈ sampleChunks, c.bytes? ≠ none := by simp [sampleChunks, Chunk.bytes?]
  have hout : sampleChunks.flatMap Chunk.bytes = [0xc3, 0xa9, 1, 2] := by decide +kernel
  have h1 : HintIs (responseSize (lengthHeader "3")) 3 := by decide +kernel
  have h2 : HintIs (responseSize (lengthHeader "3, 3")) 0 := by decide +kernel
  rw [← hout]
  have hfits (n : Nat) : Fits n 0 (sampleChunks.map fun c => c.bytes.length) := fits_of_lt (by decide +kernel)
  refine ⟨(arrayBuffer_iff (lengthHeader "3") sampleChunks hc).mpr ?_, (arrayBuffer_iff (lengthHeader "3, 3") sampleChunks hc).mpr ?_⟩
  · exact ⟨3, h1, hfits 3⟩
  · exact ⟨0, h2, hfits 0⟩

/-- A fraction, a negative number, and one that is too large. -/
theorem hint_throws :
    arrayBuffer (.stream [.uint8Array [1]]) (lengthHeader "2.5") = .error (.buffer .assertion) ∧
      arrayBuffer (.stream [.uint8Array [1]]) (lengthHeader "-1") = .error .negativeCount ∧
      arrayBuffer (.stream [.uint8Array [1]]) (lengthHeader "1e10") = .error (.buffer .maximumSize) := by
  decide +kernel

end Aworker.Fetch
