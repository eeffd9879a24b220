/-
  Aworker.Cache.PageReader — the input stream as a cursor over the bytes of a file
  (zero_copy_file_stream.cc: `Next`, `BackUp`, `Skip`, `ByteCount` of `UvZeroCopyInputFileStream`).

  The position is the index of a buffer and an offset into it. `Skip` takes the offset off every
  buffer that it passes, leaves it as it is, and always stops at a buffer; `ByteCount` adds up the
  length of the buffer at the index, once for each one before it, and there may be none.

  Main result: `cursor_iff`.
  Trace: `skip_fails`.
-/

import Mathlib
import Aworker.Lib.Run
import Aworker.Cache.FileStream

namespace Aworker.Cache

open Aworker.Lib Aworker.Fetch List Option

namespace InputFileStream

/-- The loop of `Skip` over the buffers from `idx` on; `none` is an overflow of `rem`. -/
def skipFrom (offset : Nat) : List Bytes → Int → Nat → Option Nat
  | [], _, idx => some idx
  | chunk :: chunks, rem, idx =>
    if 0 ≤ rem then
      if rem - (chunk.length - offset) < 2 ^ 31 then skipFrom offset chunks (rem - (chunk.length - offset)) (idx + 1) else none
    else some idx

def skip (s : InputFileStream) (count : Nat) : Option (Bool × InputFileStream) :=
  (skipFrom s.lastChunkReadOffset (s.bufs.drop s.readChunkIdx) count s.readChunkIdx).map fun idx =>
    (decide (idx ≠ s.bufs.length), { s with readChunkIdx := idx })

/-- The loop of `ByteCount`, which reads one buffer `n` times; `none` is a read behind the last one. -/
def countFrom (chunk : Option Bytes) : Nat → Nat → Option Nat
  | 0, count => some count
  | n + 1, count => chunk.bind fun chunk => countFrom (some chunk) n (count + chunk.length)

def byteCount (s : InputFileStream) : Option Nat :=
  (countFrom s.bufs[s.readChunkIdx]? s.readChunkIdx 0).map fun count =>
    if s.readChunkIdx ≤ s.bufs.length ∧ s.lastChunkReadOffset > 0 then count + s.lastChunkReadOffset else count

end InputFileStream

inductive Call where
  | next
  | backUp (count : Nat)
  | skip (count : Nat)
  | byteCount

inductive Answer where
  | data (bytes : Option Bytes)
  | done
  | skipped (ok : Bool)
  | count (n : Nat)
  deriving DecidableEq

def InputFileStream.call (s : InputFileStream) : Call → Option (Answer × InputFileStream)
  | .next => some (s.next.elim (.data none, s) fun (bytes, s') => (.data (some bytes), s'))
  | .backUp count => some (.done, s.backUp count)
  | .skip count => (s.skip count).map fun (ok, s') => (.skipped ok, s')
  | .byteCount => s.byteCount.map fun n => (.count n, s)

/-- The stream, and the size that `Next` has returned if that was the last call. -/
structure Reader where
  stream : InputFileStream
  last : Option Nat := none

def Answer.size : Answer → Option Nat
  | .data (some bytes) => some bytes.length
  | _ => none

def readerStep (r : Reader) (c : Call) : Option Reader := (r.stream.call c).map fun (a, stream) => { stream, last := a.size }

/-- What the contract of the stream allows. -/
def Permitted (r : Reader) : Call → Prop
  | .backUp count => ∃ size, r.last = some size ∧ count ≤ size
  | .skip count => count < 2 ^ 31
  | _ => True

/-! ## A cursor -/

/-- Where buffer `k` starts. -/
def chunkStart (bufs : List Bytes) (k : Nat) : Nat := (bufs.take k).flatten.length

/-- What a cursor at `pos` returns, and where it is then. -/
inductive Cursor (file : Bytes) (bufs : List Bytes) (pos : Nat) : Call → Answer → Nat → Prop where
  | next {k : Nat} (hk : k < bufs.length) (hfrom : chunkStart bufs k ≤ pos) (hto : pos ≤ chunkStart bufs (k + 1)) :
    Cursor file bufs pos .next (.data (some ((file.drop pos).take (chunkStart bufs (k + 1) - pos)))) (chunkStart bufs (k + 1))
  | atEnd (h : pos = file.length) : Cursor file bufs pos .next (.data none) pos
  | backUp (count : Nat) : Cursor file bufs pos (.backUp count) .done (pos - count)
  | skip (count : Nat) : Cursor file bufs pos (.skip count) (.skipped (decide (count ≤ file.length - pos))) (min (pos + count) file.length)
  | byteCount : Cursor file bufs pos .byteCount (.count pos) pos

/-- Behind the last buffer the offset says nothing. -/
def InputFileStream.position (s : InputFileStream) : Nat := min (chunkStart s.bufs s.readChunkIdx + s.lastChunkReadOffset) s.file.length

/-- The call returns what the cursor returns, and takes the stream where the cursor goes. -/
def Agrees (s : InputFileStream) (c : Call) : Prop :=
  ∃ a s', s.call c = some (a, s') ∧ Cursor s.file s.bufs s.position c a s'.position

/-- `Skip` is asked for more than there is, and stays in the range of its type; `ByteCount` adds up
    lengths that come to where the buffer starts. -/
def Fine (s : InputFileStream) : Call → Prop
  | .skip count => s.file.length < s.position + count ∧
      ∀ chunks, chunks <+: s.bufs.drop s.readChunkIdx →
        count + chunks.length * s.lastChunkReadOffset < 2 ^ 31 + chunks.flatten.length
  | .byteCount => s.readChunkIdx = 0 ∨ ∃ chunk, s.bufs[s.readChunkIdx]? = some chunk ∧
      s.readChunkIdx * chunk.length = chunkStart s.bufs s.readChunkIdx
  | _ => True

namespace Reader

open InputFileStream

variable {s : InputFileStream} {bufs : List Bytes} {chunk : Bytes} {k count : Nat}

theorem chunkStart_succ (h : bufs[k]? = some chunk) : chunkStart bufs (k + 1) = chunkStart bufs k + chunk.length := by
  rw [chunkStart, take_add_one, h]
  simp [chunkStart]

theorem chunkStart_drop (bufs : List Bytes) (k : Nat) : chunkStart bufs k + (bufs.drop k).flatten.length = bufs.flatten.length := by
  rw [chunkStart, ← length_append, ← flatten_append, take_append_drop]

theorem chunk_drop (h : bufs[k]? = some chunk) (n : Nat) :
    chunk.drop n = (bufs.flatten.drop (chunkStart bufs k + n)).take (chunk.length - n) := by
  obtain ⟨hlt, hget⟩ := List.getElem?_eq_some_iff.mp h
  have hflat : bufs.flatten = (bufs.take k).flatten ++ (chunk ++ (bufs.drop (k + 1)).flatten) := by
    rw [← hget, ← flatten_cons, ← drop_eq_getElem_cons hlt, ← flatten_append, take_append_drop]
  rw [hflat, ← drop_drop, chunkStart, drop_left]
  rcases Nat.le_total n chunk.length with hle | hge
  · rw [drop_append_of_le_length hle, take_left' (length_drop ..)]
  · rw [drop_eq_nil_of_le hge, Nat.sub_eq_zero_of_le hge, take_zero]

/-! ## At any time -/

structure Ok (s : InputFileStream) : Prop where
  whole : s.bufs.flatten = s.file
  filled : ∀ b ∈ s.bufs, b ≠ []
  index : s.readChunkIdx ≤ s.bufs.length
  inside : ∀ chunk, s.bufs[s.readChunkIdx]? = some chunk → s.lastChunkReadOffset ≤ chunk.length
  small : s.lastChunkReadOffset ≤ s.file.length

/-- `Next` has returned a buffer of size `size`, or the end of one. -/
def Taken (s : InputFileStream) (size : Nat) : Prop :=
  s.lastChunkReadOffset = 0 ∧ ∃ k chunk, s.readChunkIdx = k + 1 ∧ s.bufs[k]? = some chunk ∧ size ≤ chunk.length

theorem Ok.start_le (h : Ok s) (k : Nat) : chunkStart s.bufs k ≤ s.file.length := by
  rw [← h.whole, ← chunkStart_drop s.bufs k]
  exact Nat.le_add_right ..

theorem Ok.position_eq (h : Ok s) (hc : s.bufs[s.readChunkIdx]? = some chunk) :
    s.position = chunkStart s.bufs s.readChunkIdx + s.lastChunkReadOffset := by
  have hle := h.start_le (s.readChunkIdx + 1)
  have hin := h.inside chunk hc
  rw [chunkStart_succ hc] at hle
  exact Nat.min_eq_left (by omega)

theorem Ok.position_end (h : Ok s) (hc : s.bufs[s.readChunkIdx]? = none) : s.position = s.file.length := by
  have hall : chunkStart s.bufs s.readChunkIdx = s.file.length := by
    rw [chunkStart, take_of_length_le (List.getElem?_eq_none_iff.mp hc), h.whole]
  rw [position, hall]
  exact Nat.min_eq_right (Nat.le_add_right _ _)

theorem Ok.position_zero (h : Ok s) (h0 : s.readChunkIdx = 0) : s.position = s.lastChunkReadOffset := by
  rw [position, h0]
  simpa [chunkStart] using h.small

/-! ## `Next` and `BackUp` -/

theorem Ok.next (h : Ok s) : Agrees s .next := by
  cases hc : s.bufs[s.readChunkIdx]? with
  | none =>
    refine ⟨.data none, s, by simp [call, InputFileStream.next, hc], ?_⟩
    exact .atEnd (h.position_end hc)
  | some chunk =>
    have hpos := h.position_eq hc
    have hsucc := chunkStart_succ hc
    have hin := h.inside chunk hc
    have hle := h.start_le (s.readChunkIdx + 1)
    have hdata := chunk_drop hc s.lastChunkReadOffset
    rw [h.whole, ← hpos, show chunk.length - s.lastChunkReadOffset =
      chunkStart s.bufs (s.readChunkIdx + 1) - s.position by omega] at hdata
    refine ⟨.data (some (chunk.drop s.lastChunkReadOffset)),
      { s with readChunkIdx := s.readChunkIdx + 1, lastChunkReadOffset := 0 },
      by simp [call, InputFileStream.next, hc], ?_⟩
    rw [hdata, show position { s with readChunkIdx := s.readChunkIdx + 1, lastChunkReadOffset := 0 } =
      chunkStart s.bufs (s.readChunkIdx + 1) from Nat.min_eq_left hle]
    exact .next (List.getElem?_eq_some_iff.mp hc).1 (by omega) (by omega)

theorem Ok.backUp (h : Ok s) {size : Nat} (ht : Taken s size) (hcount : count ≤ size) : Agrees s (.backUp count) := by
  obtain ⟨hoff, k, chunk, hidx, hc, hsize⟩ := ht
  have hsucc := chunkStart_succ hc
  have hle := h.start_le (k + 1)
  have hpos : s.position = chunkStart s.bufs (k + 1) := by
    rw [position, hidx, hoff]
    exact Nat.min_eq_left hle
  have hnew : (s.backUp count).position = s.position - count := by
    simp only [position, InputFileStream.backUp, hidx, Nat.add_sub_cancel, hc, getD_some] at hpos ⊢
    omega
  refine ⟨.done, s.backUp count, rfl, ?_⟩
  rw [hnew]
  exact .backUp count

/-! ## `ByteCount` -/

theorem countFrom_some (chunk : Bytes) (n count : Nat) : countFrom (some chunk) n count = some (count + n * chunk.length) := by
  induction n generalizing count with
  | zero => simp [countFrom]
  | succ n ih =>
    rw [countFrom, bind_some, ih, Nat.succ_mul]
    congr 1
    omega

theorem Ok.byteCount_eq (h : Ok s) : s.byteCount =
    (countFrom s.bufs[s.readChunkIdx]? s.readChunkIdx 0).map (· + s.lastChunkReadOffset) := by
  unfold byteCount
  congr 1
  funext count
  have := h.index
  split <;> omega

theorem Ok.byteCount (h : Ok s) : Agrees s .byteCount ↔ Fine s .byteCount := by
  have hagrees : Agrees s .byteCount ↔ s.byteCount = some s.position := by
    constructor
    · rintro ⟨a, s', hs, hcur⟩
      obtain ⟨n, hn, he⟩ := map_eq_some_iff.mp hs
      cases he
      cases hcur
      exact hn
    · intro hn
      refine ⟨.count s.position, s, ?_, .byteCount⟩
      rw [call, hn]
      rfl
  rw [hagrees, h.byteCount_eq]
  by_cases h0 : s.readChunkIdx = 0
  · refine iff_of_true ?_ (Or.inl h0)
    rw [h.position_zero h0, h0]
    simp [countFrom]
  · cases hc : s.bufs[s.readChunkIdx]? with
    | none =>
      obtain ⟨n, hn⟩ := Nat.exists_eq_succ_of_ne_zero h0
      refine iff_of_false ?_ ?_
      · rw [hn]
        simp [countFrom]
      · rintro (hz | ⟨chunk, hchunk, -⟩)
        · exact h0 hz
        · rw [hc] at hchunk
          cases hchunk
    | some chunk =>
      rw [countFrom_some, h.position_eq hc]
      simp only [Fine, h0, hc, false_or, Option.some.injEq, exists_eq_left', map_some]
      omega

/-! ## `Skip` -/

theorem skipFrom_end {offset : Nat} {chunks : List Bytes} {rem : Int} (idx : Nat) (h0 : 0 ≤ rem) (hmore : chunks.flatten.length < rem + offset)
    (hrange : ∀ p, p <+: chunks → rem + p.length * offset < 2 ^ 31 + p.flatten.length) :
    skipFrom offset chunks rem idx = some (idx + chunks.length) := by
  induction chunks generalizing rem idx with
  | nil => rfl
  | cons chunk chunks ih =>
    have hflat : (chunk :: chunks).flatten.length = chunk.length + chunks.flatten.length := by simp
    have hone := hrange [chunk] (by simp)
    simp only [length_singleton, flatten_singleton] at hone
    rw [skipFrom, if_pos h0, if_pos (by push_cast at hone ⊢; omega)]
    refine (ih (idx + 1) (by rw [hflat] at hmore; push_cast at hmore; omega) (by rw [hflat] at hmore; push_cast at hmore; omega) fun p hp => ?_).trans ?_
    · have := hrange (chunk :: p) (cons_prefix_cons.mpr ⟨rfl, hp⟩)
      simp only [length_cons, flatten_cons, length_append] at this
      push_cast at this
      linarith
    · rw [length_cons]
      congr 1
      omega

/-- Where the loop stops: `p` are the buffers it has passed. -/
theorem skipFrom_cases {offset : Nat} {chunks : List Bytes} {rem : Int} {idx idx' : Nat} (hrem : rem < 2 ^ 31)
    (h : skipFrom offset chunks rem idx = some idx') :
    ∃ p q, chunks = p ++ q ∧ idx' = idx + p.length ∧ (q ≠ [] → rem + p.length * offset < p.flatten.length) ∧
      ∀ p', p' <+: p → rem + p'.length * offset < 2 ^ 31 + p'.flatten.length := by
  induction chunks generalizing rem idx with
  | nil =>
    refine ⟨[], [], rfl, (Option.some.inj h).symm, fun hq => absurd rfl hq, fun p' hp => ?_⟩
    rw [prefix_nil.mp hp]
    simpa using hrem
  | cons chunk chunks ih =>
    rw [skipFrom] at h
    split at h
    · obtain ⟨hlt, h⟩ := ite_none_right_eq_some.mp h
      obtain ⟨p, q, rfl, rfl, hq, hrange⟩ := ih hlt h
      refine ⟨chunk :: p, q, rfl, by rw [length_cons]; omega, fun hne => ?_, fun p' hp => ?_⟩
      · have := hq hne
        simp only [length_cons, flatten_cons, length_append]
        push_cast
        linarith
      · cases p' with
        | nil => simpa using hrem
        | cons x p' =>
          obtain ⟨rfl, hp'⟩ := cons_prefix_cons.mp hp
          have := hrange p' hp'
          simp only [length_cons, flatten_cons, length_append]
          push_cast
          linarith
    · next hneg =>
      refine ⟨[], chunk :: chunks, rfl, (Option.some.inj h).symm, fun _ => ?_, fun p' hp => ?_⟩
      · simpa using hneg
      · rw [prefix_nil.mp hp]
        simpa using hrem

theorem length_flatten_pos {l : List Bytes} (h : ∀ b ∈ l, b ≠ []) (hne : l ≠ []) : 0 < l.flatten.length := by
  obtain ⟨b, l, rfl⟩ := exists_cons_of_ne_nil hne
  rw [flatten_cons, length_append]
  exact Nat.add_pos_left (length_pos_iff.mpr (h b mem_cons_self)) _

theorem Ok.rest_eq (h : Ok s) :
    chunkStart s.bufs s.readChunkIdx + (s.bufs.drop s.readChunkIdx).flatten.length = s.file.length := by
  rw [chunkStart_drop, h.whole]

theorem cursor_skip {file : Bytes} {pos pos' : Nat} {a : Answer} (h : Cursor file bufs pos (.skip count) a pos') :
    a = .skipped (decide (count ≤ file.length - pos)) ∧ pos' = min (pos + count) file.length := by
  cases h
  exact ⟨rfl, rfl⟩

theorem Ok.skip_all (h : Ok s) (hf : Fine s (.skip count)) :
    s.skip count = some (false, { s with readChunkIdx := s.bufs.length }) := by
  obtain ⟨hmore, hrange⟩ := hf
  have hrest := h.rest_eq
  have hle : s.position ≤ chunkStart s.bufs s.readChunkIdx + s.lastChunkReadOffset := Nat.min_le_left ..
  have hall : skipFrom s.lastChunkReadOffset (s.bufs.drop s.readChunkIdx) count s.readChunkIdx =
      some (s.readChunkIdx + (s.bufs.drop s.readChunkIdx).length) :=
    skipFrom_end _ (Int.natCast_nonneg count) (by omega) fun p hp => by exact_mod_cast hrange p hp
  rw [length_drop, Nat.add_sub_cancel' h.index] at hall
  simp [skip, hall]

theorem Ok.skip_behind (h : Ok s) {p q : List Bytes} (hpq : s.bufs.drop s.readChunkIdx = p ++ q) (hq : q ≠ [])
    (hstop : count + p.length * s.lastChunkReadOffset < p.flatten.length) :
    min (s.position + count) s.file.length <
      min (chunkStart s.bufs (s.readChunkIdx + p.length) + s.lastChunkReadOffset) s.file.length := by
  have hrest := h.rest_eq
  have hlen := congrArg List.length hpq
  have hqpos : 0 < q.flatten.length := length_flatten_pos (fun b hb => h.filled b (mem_of_mem_drop (hpq ▸ mem_append_right p hb))) hq
  have hppos : 0 < p.length := by
    refine length_pos_iff.mpr fun hnil => ?_
    simp [hnil] at hstop
  have hmul : s.lastChunkReadOffset ≤ p.length * s.lastChunkReadOffset := Nat.le_mul_of_pos_left _ hppos
  rw [length_drop, length_append] at hlen
  rw [hpq, flatten_append, length_append] at hrest
  have hpos := h.position_eq (getElem?_eq_getElem (show s.readChunkIdx < s.bufs.length by omega))
  have hstart : chunkStart s.bufs (s.readChunkIdx + p.length) =
      chunkStart s.bufs s.readChunkIdx + p.flatten.length := by
    rw [chunkStart, take_add, hpq, take_left, flatten_append, length_append]
    rfl
  rw [hstart, hpos]
  omega

theorem Ok.skip (h : Ok s) (hp : count < 2 ^ 31) : Agrees s (.skip count) ↔ Fine s (.skip count) := by
  constructor
  · rintro ⟨a, s', hs, hcur⟩
    obtain ⟨⟨ok, s''⟩, hskip, he⟩ := map_eq_some_iff.mp hs
    cases he
    obtain ⟨idx, hidx, he⟩ := map_eq_some_iff.mp hskip
    cases he
    obtain ⟨hflag, hnew⟩ := cursor_skip hcur
    obtain ⟨p, q, hpq, rfl, hq, hrange⟩ := skipFrom_cases (by exact_mod_cast hp) hidx
    rw [Answer.skipped.injEq, decide_eq_decide] at hflag
    have hlen := congrArg List.length hpq
    have hindex := h.index
    rw [length_drop, length_append] at hlen
    by_cases hnil : q = []
    · -- all buffers are passed, and it returns false
      rw [hnil, length_nil] at hlen
      refine ⟨?_, fun chunks hchunks => ?_⟩
      · by_contra hle
        exact absurd (hflag.mpr (by omega)) (by omega)
      · rw [hpq, hnil, append_nil] at hchunks
        exact_mod_cast hrange chunks hchunks
    · have hbehind := h.skip_behind hpq hnil (by exact_mod_cast hq hnil)
      exact absurd hnew.symm (Nat.ne_of_lt hbehind)
  · intro hf
    have hmore := hf.1
    have hends : position { s with readChunkIdx := s.bufs.length } =
        min (s.position + count) s.file.length := by
      have hfull : chunkStart s.bufs s.bufs.length = s.file.length := by rw [chunkStart, take_length, h.whole]
      rw [Nat.min_eq_right (Nat.le_of_lt hmore), position, hfull]
      exact Nat.min_eq_right (Nat.le_add_right _ _)
    have hle : s.position ≤ s.file.length := Nat.min_le_right ..
    have hflag : decide (count ≤ s.file.length - s.position) = false := decide_eq_false (by omega)
    refine ⟨.skipped false, { s with readChunkIdx := s.bufs.length }, by simp [call, h.skip_all hf], ?_⟩
    rw [hends, ← hflag]
    exact .skip count

/-! ## Calls in a row -/

/-- The stream, and what a `BackUp` may go back into. -/
structure ReaderOk (r : Reader) : Prop extends Ok r.stream where
  taken : ∀ size, r.last = some size → Taken r.stream size

variable {r : Reader} {c : Call}

theorem ReaderOk.agrees_iff (h : ReaderOk r) (hp : Permitted r c) : Agrees r.stream c ↔ Fine r.stream c := by
  cases c with
  | next => exact iff_of_true h.next trivial
  | backUp count =>
    obtain ⟨size, hlast, hcount⟩ := hp
    exact iff_of_true (h.backUp (h.taken size hlast) hcount) trivial
  | skip count => exact h.skip hp
  | byteCount => exact h.byteCount

theorem step_ok (h : ReaderOk r) (hp : Permitted r c) (hf : Fine r.stream c) {r' : Reader} (hs : readerStep r c = some r') : ReaderOk r' := by
  obtain ⟨⟨a, s'⟩, hcall, rfl⟩ := map_eq_some_iff.mp hs
  cases c with
  | next =>
    cases hc : r.stream.bufs[r.stream.readChunkIdx]? with
    | none =>
      simp only [call, InputFileStream.next, hc, elim_none, Option.some.injEq] at hcall
      cases hcall
      exact ⟨h.toOk, fun _ hsize => by cases hsize⟩
    | some chunk =>
      simp only [call, InputFileStream.next, hc, elim_some, Option.some.injEq] at hcall
      cases hcall
      refine ⟨⟨h.whole, h.filled, (List.getElem?_eq_some_iff.mp hc).1, fun _ _ => Nat.zero_le _, Nat.zero_le _⟩, fun size hsize => ?_⟩
      refine ⟨rfl, r.stream.readChunkIdx, chunk, rfl, hc, ?_⟩
      rw [← Option.some.inj hsize, length_drop]
      exact Nat.sub_le ..
  | backUp count =>
    obtain ⟨size, hlast, hcount⟩ := hp
    obtain ⟨-, k, chunk, hidx, hc, hsize⟩ := h.taken size hlast
    cases hcall
    have hlt := (List.getElem?_eq_some_iff.mp hc).1
    have hle := h.start_le (k + 1)
    rw [chunkStart_succ hc] at hle
    refine ⟨⟨h.whole, h.filled, ?_, fun chunk' hc' => ?_, ?_⟩, fun _ hsize => by cases hsize⟩
    · simp only [InputFileStream.backUp, hidx]
      omega
    · simp only [InputFileStream.backUp, hidx, Nat.add_sub_cancel, hc, Option.some.injEq, getD_some] at hc' ⊢
      rw [← hc']
      exact Nat.sub_le ..
    · simp only [InputFileStream.backUp, hidx, Nat.add_sub_cancel, hc, getD_some]
      omega
  | skip count =>
    simp only [call, h.skip_all hf, map_some, Option.some.injEq] at hcall
    cases hcall
    exact ⟨⟨h.whole, h.filled, Nat.le_refl _, fun chunk hc => by simp at hc, h.small⟩, fun _ hsize => by cases hsize⟩
  | byteCount =>
    obtain ⟨n, -, he⟩ := map_eq_some_iff.mp hcall
    cases he
    exact ⟨h.toOk, fun _ hsize => by cases hsize⟩

/-- The calls that the contract allows, on a file that was read to its end in whatever pieces: each one does
    what it does to a cursor exactly if each one meets the condition. -/
theorem cursor_iff (file : Bytes) (ns : List Nat) (s : InputFileStream) (hr : run readCb { file } ns = some s)
    (hend : s.reading = false ∧ s.fsReadOffset = file.length) (cs : List Call) (hp : Along readerStep Permitted { stream := s } cs) :
    s.file = file ∧ (Along readerStep (fun r => Agrees r.stream) { stream := s } cs ↔ Along readerStep (fun r => Fine r.stream) { stream := s } cs) := by
  obtain ⟨hreads, hfile⟩ : s.Reads ∧ s.file = file := by
    refine run_inv (I := fun s : InputFileStream => s.Reads ∧ s.file = file) (fun s n s' h _ hs => ⟨reads_step h.1 hs, ?_⟩)
      ⟨reads_start file, rfl⟩ (along_true _ ns) hr
    obtain ⟨-, -, -, ⟨-, rfl⟩ | ⟨-, rfl⟩⟩ := readCb_cases hs
    · exact h.2
    · exact h.2
  obtain ⟨hidx, hoff⟩ := hreads.fresh
  have hok : ReaderOk { stream := s } := by
    refine ⟨⟨?_, hreads.filled, by simp [hidx], fun _ _ => by simp [hoff], by simp [hoff]⟩, nofun⟩
    rw [hreads.bytes, hend.2, hfile, take_length]
  exact ⟨hfile, along_iff (fun r c r' h hp ha hs => step_ok h hp ((h.agrees_iff hp).mp ha) hs) (fun r c h hp => h.agrees_iff hp) hok hp⟩

def threeBytes : InputFileStream := { file := [1, 2, 3], bufs := [[1, 2], [3]], fsReadOffset := 3, reading := false }

/-- The second buffer is taken and given back, and more is skipped than there is. -/
def cursorCalls : List Call := [.byteCount, .next, .backUp 1, .byteCount, .next, .next, .backUp 1, .skip 2, .next]

theorem cursorCalls_agree : Along readerStep Permitted { stream := threeBytes } cursorCalls ∧
    Along readerStep (fun r => Agrees r.stream) { stream := threeBytes } cursorCalls := by
  have hp : Along readerStep Permitted { stream := threeBytes } cursorCalls :=
    ⟨trivial, trivial, ⟨2, rfl, by decide⟩, trivial, trivial, trivial, ⟨1, rfl, by decide⟩, show 2 < 2 ^ 31 by decide, trivial, trivial⟩
  refine ⟨hp, (cursor_iff [1, 2, 3] [2, 1, 0] threeBytes rfl ⟨rfl, rfl⟩ cursorCalls hp).2.mpr ?_⟩
  refine ⟨Or.inl rfl, trivial, trivial, Or.inl rfl, trivial, trivial, trivial, ⟨show 3 < 2 + 2 by decide, fun chunks _ => ?_⟩, trivial, trivial⟩
  show 2 + chunks.length * 0 < 2 ^ 31 + chunks.flatten.length
  omega

/-- `Skip(1)` goes to the second buffer, and `Skip(3)` returns false although there are three bytes;
    `ByteCount` in the second buffer is 1, and behind it there is nothing to read. -/
theorem skip_fails :
    (threeBytes.skip 1).map (fun x => (x.1, x.2.position)) = some (true, 2) ∧ (threeBytes.skip 3).map (·.1) = some false ∧
      ((readerStep { stream := threeBytes } .next).bind fun r => r.stream.byteCount) = some 1 ∧
      (((readerStep { stream := threeBytes } .next).bind (readerStep · .next)).bind fun r => r.stream.byteCount) = none ∧
      ¬Along readerStep (fun r => Agrees r.stream) { stream := threeBytes } [.skip 1] := by
  refine ⟨rfl, rfl, rfl, rfl, fun h => ?_⟩
  obtain ⟨a, s', hs, hcur⟩ := h.1
  cases hs
  exact absurd (cursor_skip hcur).2 (by decide)

end Reader

end Aworker.Cache
