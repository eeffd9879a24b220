/-
  Aworker.Cache.FileStream — the two file streams under a page
  (zero_copy_file_stream.cc: `UvZeroCopyOutputFileStream`, `UvZeroCopyInputFileStream`).

  The output stream queues the buffers a serializer fills. It starts to write in the idle
  phase after the serializer has returned, one write at a time, each at the offset of what
  was written so far; a write may take fewer bytes than it was given. The input stream reads
  buffers until a read returns nothing and then hands itself to its callback; `Next` and
  `BackUp` walk over the buffers it has read. A result that is an error ends either of them
  without a callback.

  Buffers carry their bounds. While a write is outstanding nothing else touches the front of
  the queue, so the bytes of the request are what is left of the front.

  - `serialize_queue`: what a serializer leaves in the queue.
  - `write_step` / `write_measure`: file and queue together stay the bytes that were queued,
    and each write that takes a byte brings the end nearer.
  Also `drain_backUp`.
-/

import Mathlib
import Aworker.Fetch.Js
import Aworker.Lib.Run

namespace Aworker.Cache

open Aworker.Lib Aworker.Fetch List Option

def maxPipePage : Nat := 65536

/-! ## Writing -/

structure ZeroCopyStreamBuf where
  data : Bytes
  len : Nat
  written : Nat := 0
  fits : len ≤ data.length
  inside : written ≤ len

variable {n : Nat}

namespace ZeroCopyStreamBuf

/-- `(data + written, len - written)` -/
def rest (b : ZeroCopyStreamBuf) : Bytes := (b.data.drop b.written).take (b.len - b.written)

def shrink (b : ZeroCopyStreamBuf) (count : Nat) (h : b.written = 0) : ZeroCopyStreamBuf :=
  { b with len := b.len - count, fits := (Nat.sub_le ..).trans b.fits, inside := by rw [h]; exact Nat.zero_le _ }

def advance (b : ZeroCopyStreamBuf) (n : Nat) (h : n ≤ b.len - b.written) : ZeroCopyStreamBuf :=
  { b with written := b.written + n, inside := by have := b.inside; omega }

@[simp] theorem length_rest (b : ZeroCopyStreamBuf) : b.rest.length = b.len - b.written := by
  have := b.fits
  simp [rest]
  omega

theorem rest_advance (b : ZeroCopyStreamBuf) (h : n ≤ b.len - b.written) : (b.advance n h).rest = b.rest.drop n := by
  simp only [rest, advance, drop_take, drop_drop]
  congr 1
  omega

end ZeroCopyStreamBuf

/-- The memory `Next` hands out, with what is put into it. -/
abbrev Page := { p : Bytes // p.length = maxPipePage }

def Page.buf (p : Page) : ZeroCopyStreamBuf :=
  { data := p.val, len := maxPipePage, fits := p.property.ge, inside := Nat.zero_le _ }

@[simp] theorem Page.rest_buf (p : Page) : p.buf.rest = p.val := by
  have := p.property
  simp [Page.buf, ZeroCopyStreamBuf.rest, this.symm]

structure OutputFileStream where
  queue : List ZeroCopyStreamBuf := []
  writtenCount : Nat := 0
  waitingForWrite : Bool := false
  waitingForDispose : Bool := false
  /-- the idle handle is active -/
  idle : Bool := false
  /-- a write is outstanding -/
  writing : Bool := false
  file : Bytes := []
  /-- calls of `on_end_` -/
  ended : Nat := 0

/-- `pwrite(2)` -/
def pwrite (file : Bytes) (offset : Nat) (bytes : Bytes) : Bytes :=
  file.take offset ++ List.replicate (offset - file.length) 0 ++ bytes ++ file.drop (offset + bytes.length)

namespace OutputFileStream

def setWritingForWrite (s : OutputFileStream) (it : Bool) : OutputFileStream :=
  if s.waitingForWrite = it then s else { s with waitingForWrite := it, idle := it || s.idle }

/-- `none` is a failed `CHECK`. -/
def next (s : OutputFileStream) (page : Page) : Option OutputFileStream :=
  if s.waitingForDispose then none else some ({ s with queue := s.queue ++ [page.buf] }.setWritingForWrite true)

def backUp (s : OutputFileStream) (count : Nat) : Option OutputFileStream :=
  match s.queue.getLast? with
  | none => none
  | some last => if h : last.written = 0 then some { s with queue := s.queue.dropLast ++ [last.shrink count h] } else none

def close (s : OutputFileStream) : OutputFileStream := { s with ended := s.ended + 1 }

def disposeAndDelete (s : OutputFileStream) : OutputFileStream :=
  let s := { s with waitingForDispose := true }
  if s.waitingForWrite then s else s.close

def writeNext (s : OutputFileStream) : OutputFileStream := { s with writing := true }

def idleCb (s : OutputFileStream) : Option OutputFileStream :=
  if s.idle then some { s.writeNext with idle := false } else none

/-- The queue after `n` bytes of its front were written. -/
def popWritten (buf : ZeroCopyStreamBuf) (queue : List ZeroCopyStreamBuf) (n : Nat) (h : n ≤ buf.len - buf.written) :
    List ZeroCopyStreamBuf :=
  if buf.written + n = buf.len then queue else buf.advance n h :: queue

/-- A write that took `n` bytes. -/
def writeCb (s : OutputFileStream) (n : Nat) : Option OutputFileStream :=
  match s.queue with
  | [] => none
  | buf :: queue =>
    if h : s.writing = true ∧ n ≤ buf.len - buf.written then
      let s := { s with
        writing := false, file := pwrite s.file s.writtenCount (buf.rest.take n), writtenCount := s.writtenCount + n,
        queue := popWritten buf queue n h.2 }
      if s.queue.length > 0 then some s.writeNext
      else
        let s := s.setWritingForWrite false
        some (if s.waitingForDispose then s.close else s)
    else none

end OutputFileStream

inductive WriteEv where
  | idle
  | wrote (n : Nat)
  | failed
  deriving DecidableEq

def writeStep (s : OutputFileStream) : WriteEv → Option OutputFileStream
  | .idle => s.idleCb
  | .wrote n => s.writeCb n
  -- logged, and nothing else
  | .failed => if s.writing then some { s with writing := false } else none

/-- What a serializer does for `bytes`: the buffers it gets by `Next`, and the part of the last
    one it returns by `BackUp`. -/
structure Serialized (bytes : Bytes) where
  pages : List Page
  unused : Nat
  contents : ∃ tail : Bytes, tail.length = unused ∧ (pages.map Subtype.val).flatten = bytes ++ tail
  small : unused ≤ maxPipePage

def OutputFileStream.serialize (s : OutputFileStream) {bytes : Bytes} (z : Serialized bytes) : Option OutputFileStream := do
  let s ← z.pages.foldlM OutputFileStream.next s
  if z.pages = [] then some s else s.backUp z.unused

/-! ## What is left to write -/

variable {s s' : OutputFileStream} {bytes total : Bytes} {e : WriteEv}

namespace OutputFileStream

def rest (s : OutputFileStream) : Bytes := (s.queue.map ZeroCopyStreamBuf.rest).flatten

structure Collecting (s : OutputFileStream) : Prop where
  nothing : s.file = [] ∧ s.writtenCount = 0 ∧ s.writing = false ∧ s.ended = 0
  openYet : s.waitingForDispose = false
  starts : s.idle = s.waitingForWrite ∧ (s.waitingForWrite = true ↔ s.queue ≠ [])

theorem collecting_next (h : s.Collecting) (page : Page) :
    ∃ s', s.next page = some s' ∧ s'.Collecting ∧ s'.queue = s.queue ++ [page.buf] := by
  obtain ⟨⟨h1, h2, h3, h4⟩, h5, h6, h7⟩ := h
  cases hw : s.waitingForWrite with
  | true =>
    refine ⟨{ s with queue := s.queue ++ [page.buf] }, ?_, ⟨⟨h1, h2, h3, h4⟩, h5, h6, ?_⟩, rfl⟩
    · simp [next, h5, setWritingForWrite, hw]
    · simp [hw]
  | false =>
    refine ⟨{ s with queue := s.queue ++ [page.buf], waitingForWrite := true, idle := true }, ?_, ⟨⟨h1, h2, h3, h4⟩, h5, rfl, ?_⟩, rfl⟩
    · simp [next, h5, setWritingForWrite, hw]
    · simp

theorem collecting_nexts (h : s.Collecting) (pages : List Page) :
    ∃ s', pages.foldlM OutputFileStream.next s = some s' ∧ s'.Collecting ∧ s'.queue = s.queue ++ pages.map Page.buf := by
  induction pages generalizing s with
  | nil => exact ⟨s, rfl, h, by simp⟩
  | cons page pages ih =>
    obtain ⟨u, hu, hc, hq⟩ := collecting_next h page
    obtain ⟨t, ht, hct, hqt⟩ := ih hc
    exact ⟨t, by simp [foldlM_cons, hu, ht], hct, by simp [hqt, hq]⟩

theorem flatten_rest_buf (pages : List Page) :
    ((pages.map Page.buf).map ZeroCopyStreamBuf.rest).flatten = (pages.map Subtype.val).flatten := by
  simp [List.map_map, Function.comp_def]

theorem rest_shrink (page : Page) (count : Nat) : (page.buf.shrink count rfl).rest = page.val.take (maxPipePage - count) := by
  simp [ZeroCopyStreamBuf.rest, ZeroCopyStreamBuf.shrink, Page.buf]

theorem serialize_queue (h : s.Collecting) (z : Serialized bytes) :
    ∃ s', s.serialize z = some s' ∧ s'.Collecting ∧ s'.rest = s.rest ++ bytes ∧ s'.queue.length = s.queue.length + z.pages.length := by
  obtain ⟨t, ht, hc, hq⟩ := collecting_nexts h z.pages
  obtain ⟨tail, htail, hcontents⟩ := z.contents
  rcases eq_nil_or_concat z.pages with hp | ⟨init, last, hp⟩
  · have hbytes : bytes = [] := by
      rw [hp] at hcontents
      exact (append_eq_nil_iff.mp hcontents.symm).1
    refine ⟨t, ?_, hc, ?_, by simp [hq]⟩
    · rw [serialize, ht, hp]
      rfl
    simp [rest, hq, hp, hbytes]
  · have hlast : t.queue = s.queue ++ init.map Page.buf ++ [last.buf] := by simp [hq, hp]
    have hwritten : last.buf.written = 0 := rfl
    refine ⟨{ t with queue := s.queue ++ init.map Page.buf ++ [last.buf.shrink z.unused hwritten] }, ?_, ?_, ?_, ?_⟩
    · have hne : z.pages ≠ [] := by simp [hp]
      show (z.pages.foldlM OutputFileStream.next s >>= fun s => if z.pages = [] then some s else s.backUp z.unused) = _
      rw [ht]
      show (if z.pages = [] then some t else t.backUp z.unused) = _
      rw [if_neg hne]
      simp [backUp, hlast, hwritten]
    · obtain ⟨h1, h2, h3, h4⟩ := hc
      refine ⟨h1, h2, h3, ?_⟩
      simp [h4, hlast]
    · -- the flattened pages are `bytes ++ tail`, and the last page ends with all of `tail`
      have hflat : (init.map Subtype.val).flatten ++ last.val = bytes ++ tail := by
        rw [hp] at hcontents
        simpa using hcontents
      have hsmall := z.small
      have hlen : last.val.length = maxPipePage := last.property
      have htake : (init.map Subtype.val).flatten ++ last.val.take (maxPipePage - z.unused) = bytes := by
        have hl := congrArg List.length hflat
        simp only [length_append, hlen] at hl
        have := congrArg (List.take bytes.length) hflat
        rw [take_left, take_append] at this
        rw [take_of_length_le (by omega)] at this
        refine Eq.trans ?_ this
        congr 2
        omega
      simp only [rest, map_append, flatten_append, flatten_rest_buf, map_singleton, flatten_singleton, rest_shrink]
      rw [append_assoc, htake]
    · simp [hp]

/-! ## Runs of writes -/

structure Pending (total : Bytes) (s : OutputFileStream) : Prop where
  contents : s.file ++ s.rest = total
  offset : s.file.length = s.writtenCount
  queued : s.queue ≠ []
  waits : s.waitingForWrite = true ∧ s.waitingForDispose = true
  active : s.idle = !s.writing
  notYet : s.ended = 0

structure Finished (total : Bytes) (s : OutputFileStream) : Prop where
  contents : s.file = total
  quiet : s.idle = false ∧ s.writing = false
  once : s.ended = 1

theorem pwrite_end {file : Bytes} {offset : Nat} (h : file.length = offset) : pwrite file offset bytes = file ++ bytes := by
  subst h
  simp [pwrite]

theorem rest_popWritten (b : ZeroCopyStreamBuf) (queue : List ZeroCopyStreamBuf) (h : n ≤ b.len - b.written) :
    ((popWritten b queue n h).map ZeroCopyStreamBuf.rest).flatten = b.rest.drop n ++ (queue.map ZeroCopyStreamBuf.rest).flatten := by
  unfold popWritten
  split
  · rename_i hfull
    have hdrop : b.rest.drop n = [] := drop_eq_nil_of_le (by rw [b.length_rest]; omega)
    rw [hdrop, nil_append]
  · rw [map_cons, flatten_cons, b.rest_advance h]

theorem writeCb_cases (hs : s.writeCb n = some s') :
    ∃ b queue, ∃ h : n ≤ b.len - b.written, s.queue = b :: queue ∧ s.writing = true ∧
      s'.file = pwrite s.file s.writtenCount (b.rest.take n) ∧ s'.writtenCount = s.writtenCount + n ∧
      s'.queue = popWritten b queue n h ∧ s'.idle = s.idle ∧ s'.waitingForDispose = s.waitingForDispose ∧
      (if s'.queue = [] then s'.writing = false ∧ s'.waitingForWrite = false ∧ s'.ended = s.ended + s.waitingForDispose.toNat
       else s'.writing = true ∧ s'.waitingForWrite = s.waitingForWrite ∧ s'.ended = s.ended) := by
  cases hqueue : s.queue with
  | nil => simp [writeCb, hqueue] at hs
  | cons b queue =>
    simp only [writeCb, hqueue] at hs
    split at hs
    case isFalse => cases hs
    case isTrue hwn =>
      refine ⟨b, queue, hwn.2, rfl, hwn.1, ?_⟩
      cases hq : popWritten b queue n hwn.2 with
      | nil =>
        simp only [hq, length_nil, gt_iff_lt, Nat.lt_irrefl, if_false, setWritingForWrite, Option.some.injEq] at hs
        subst hs
        cases hw : s.waitingForWrite <;> cases hd : s.waitingForDispose <;> simp [close]
      | cons x q =>
        simp only [hq, length_cons, gt_iff_lt, Nat.zero_lt_succ, if_true, Option.some.injEq] at hs
        subst hs
        simp [writeNext]

theorem idleCb_cases (hs : s.idleCb = some s') : s.idle = true ∧ s' = { s.writeNext with idle := false } := by
  simp only [idleCb] at hs
  split at hs
  · exact ⟨‹_›, (Option.some.inj hs).symm⟩
  · cases hs

theorem writeCb_contents (ho : s.file.length = s.writtenCount) (hs : s.writeCb n = some s') :
    s'.file ++ s'.rest = s.file ++ s.rest ∧ s'.file.length = s'.writtenCount := by
  obtain ⟨b, queue, hle, hqueue, -, hfile, hcount, hqueue', -⟩ := writeCb_cases hs
  rw [pwrite_end ho] at hfile
  constructor
  · rw [hfile, rest, hqueue', rest_popWritten, rest, hqueue, map_cons, flatten_cons]
    rw [append_assoc, ← append_assoc (b.rest.take n), take_append_drop]
  · rw [hfile, hcount, length_append, ho, length_take, b.length_rest]
    omega

theorem write_step (h : s.Pending total) (he : e ≠ .failed)
    (hs : writeStep s e = some s') : s'.Pending total ∨ s'.Finished total := by
  obtain ⟨hc, ho, hq, ⟨hw, hd⟩, ha, hn⟩ := h
  cases e with
  | failed => exact absurd rfl he
  | idle =>
    obtain ⟨-, rfl⟩ := idleCb_cases hs
    exact Or.inl ⟨hc, ho, hq, ⟨hw, hd⟩, rfl, hn⟩
  | wrote n =>
    obtain ⟨b, queue, hle, hqueue, hwriting, -, -, -, hidle', hd', hend⟩ := writeCb_cases hs
    have hidle : s'.idle = false := by rw [hidle', ha, hwriting]; rfl
    obtain ⟨htotal, ho'⟩ := writeCb_contents ho hs
    rw [hc] at htotal
    by_cases hnil : s'.queue = []
    · rw [if_pos hnil, hn, hd] at hend
      refine Or.inr ⟨?_, ⟨hidle, hend.1⟩, hend.2.2⟩
      simpa [rest, hnil] using htotal
    · rw [if_neg hnil] at hend
      obtain ⟨hwr, hww, hen⟩ := hend
      exact Or.inl ⟨htotal, ho', hnil, ⟨hww.trans hw, hd'.trans hd⟩, by rw [hidle, hwr]; rfl, hen.trans hn⟩

theorem finished_stuck (h : s.Finished total) (e : WriteEv) : writeStep s e = none := by
  obtain ⟨-, ⟨hi, hw⟩, -⟩ := h
  cases e with
  | idle => simp [writeStep, idleCb, hi]
  | failed => simp [writeStep, hw]
  | wrote n =>
    cases hq : s.queue with
    | nil => simp [writeStep, writeCb, hq]
    | cons b queue => simp [writeStep, writeCb, hq, hw]

/-- A step that makes progress: a write takes a byte, if it was given one. -/
def Transfers (s : OutputFileStream) : WriteEv → Prop
  | .idle => True
  | .wrote n => n = 0 → ∀ b ∈ s.queue.head?, b.rest = []
  | .failed => False

def measure (s : OutputFileStream) : Nat := s.rest.length + s.queue.length + s.idle.toNat

theorem length_popWritten {b : ZeroCopyStreamBuf} (queue : List ZeroCopyStreamBuf) (h : n ≤ b.len - b.written)
    (hpos : n = 0 → b.rest = []) :
    (b.rest.drop n).length + (popWritten b queue n h).length < b.rest.length + (b :: queue).length := by
  have hinside := b.inside
  unfold popWritten
  split
  · simp
    omega
  · rename_i hfull
    have hn : n ≠ 0 := by
      intro h0
      have := congrArg List.length (hpos h0)
      rw [b.length_rest, length_nil] at this
      omega
    simp only [length_drop, b.length_rest, length_cons]
    omega

theorem write_measure (ht : s.Transfers e) (hs : writeStep s e = some s') : s'.measure < s.measure := by
  cases e with
  | failed => exact ht.elim
  | idle =>
    obtain ⟨hi, rfl⟩ := idleCb_cases hs
    simp [measure, rest, writeNext, hi]
  | wrote n =>
    obtain ⟨b, queue, hle, hqueue, -, -, -, hqueue', hidle', -, -⟩ := writeCb_cases hs
    have hlt := length_popWritten queue hle fun h0 => ht h0 b (by simp [hqueue])
    have hrest : s'.rest.length = (b.rest.drop n).length + ((queue.map ZeroCopyStreamBuf.rest).flatten).length := by
      rw [rest, hqueue', rest_popWritten, length_append]
    have hrest0 : s.rest.length = b.rest.length + ((queue.map ZeroCopyStreamBuf.rest).flatten).length := by
      rw [rest, hqueue, map_cons, flatten_cons, length_append]
    rw [measure, measure, hrest, hrest0, hqueue', hqueue, hidle']
    omega

theorem write_progress (h : s.Pending total) : ∃ e s', s.Transfers e ∧ writeStep s e = some s' := by
  cases hi : s.idle with
  | true => exact ⟨.idle, { s.writeNext with idle := false }, trivial, by simp [writeStep, idleCb, hi]⟩
  | false =>
    have hw : s.writing = true := by
      have := h.active
      rw [hi] at this
      simpa using this.symm
    cases hq : s.queue with
    | nil => exact absurd hq h.queued
    | cons b queue =>
      refine ⟨.wrote (b.len - b.written), ?_⟩
      have hsome : ∃ s', writeStep s (.wrote (b.len - b.written)) = some s' := by
        simp only [writeStep, writeCb, hq, hw, le_refl, and_self, dite_true]
        split <;> exact ⟨_, rfl⟩
      obtain ⟨s', hs'⟩ := hsome
      refine ⟨s', ?_, hs'⟩
      intro h0 x hx
      simp only [hq, head?_cons, mem_def, Option.some.injEq] at hx
      subst hx
      exact length_eq_zero_iff.mp (by rw [b.length_rest, h0])

end OutputFileStream

/-! ## Reading -/

structure InputFileStream where
  /-- what the descriptor reads -/
  file : Bytes
  /-- the buffers read so far; the one of the outstanding read is not among them -/
  bufs : List Bytes := []
  fsReadOffset : Nat := 0
  /-- a read is outstanding -/
  reading : Bool := true
  readChunkIdx : Nat := 0
  lastChunkReadOffset : Nat := 0

inductive ReadEv where
  | read (n : Nat)
  | failed
  deriving DecidableEq

namespace InputFileStream

/-- A read that returned `n` bytes. -/
def readCb (s : InputFileStream) (n : Nat) : Option InputFileStream :=
  if s.reading = true ∧ n ≤ maxPipePage ∧ n ≤ s.file.length - s.fsReadOffset then
    if n = 0 then some { s with reading := false }
    else some { s with bufs := s.bufs ++ [(s.file.drop s.fsReadOffset).take n], fsReadOffset := s.fsReadOffset + n }
  else none

def next (s : InputFileStream) : Option (Bytes × InputFileStream) :=
  match s.bufs[s.readChunkIdx]? with
  | none => none
  | some chunk => some (chunk.drop s.lastChunkReadOffset, { s with readChunkIdx := s.readChunkIdx + 1, lastChunkReadOffset := 0 })

def backUp (s : InputFileStream) (count : Nat) : InputFileStream :=
  let idx := s.readChunkIdx - 1
  { s with readChunkIdx := idx, lastChunkReadOffset := (s.bufs[idx]?.getD []).length - count }

/-- What a parser gets by calling `Next` until there is nothing more. -/
def drain : Nat → InputFileStream → Bytes
  | 0, _ => []
  | fuel + 1, s =>
    match s.next with
    | none => []
    | some (data, s) => data ++ drain fuel s

def contents (s : InputFileStream) : Bytes := drain (s.bufs.length + 1) s

theorem drain_from (fuel : Nat) (s : InputFileStream) (hoff : s.lastChunkReadOffset = 0) (hf : s.bufs.length < s.readChunkIdx + fuel) :
    drain fuel s = (s.bufs.drop s.readChunkIdx).flatten := by
  induction fuel generalizing s with
  | zero => rw [drop_eq_nil_of_le (by omega)]; rfl
  | succ fuel ih =>
    cases hb : s.bufs[s.readChunkIdx]? with
    | none =>
      rw [drop_eq_nil_of_le (List.getElem?_eq_none_iff.mp hb)]
      simp [drain, next, hb]
    | some chunk =>
      obtain ⟨hlt, hget⟩ := List.getElem?_eq_some_iff.mp hb
      have hrest := ih { s with readChunkIdx := s.readChunkIdx + 1, lastChunkReadOffset := 0 } rfl (by simp; omega)
      simp only [drain, next, hb, hrest, hoff, drop_zero]
      rw [drop_eq_getElem_cons hlt, flatten_cons, hget]

variable {s : InputFileStream}

theorem drain_backUp {first : Bytes} {bufs : List Bytes} (hb : s.bufs = first :: bufs)
    (hidx : s.readChunkIdx = 1) (hn : n ≤ first.length) :
    (s.backUp (first.length - n)).contents = s.bufs.flatten.drop n := by
  have hoff : first.length - (first.length - n) = n := by omega
  have hdrain := drain_from s.bufs.length { s.backUp (first.length - n) with readChunkIdx := 1, lastChunkReadOffset := 0 } rfl
    (by simp [backUp])
  simp only [contents, drain, next, backUp, hb, hidx, Nat.sub_self, getElem?_cons_zero, getD_some, hoff, Nat.zero_add]
  simp only [backUp, hb, hidx, Nat.sub_self, getElem?_cons_zero, getD_some, hoff, drop_one, tail_cons] at hdrain
  rw [hdrain, flatten_cons, drop_append_of_le_length hn]

structure Reads (s : InputFileStream) : Prop where
  bytes : s.bufs.flatten = s.file.take s.fsReadOffset
  bound : s.fsReadOffset ≤ s.file.length
  filled : ∀ b ∈ s.bufs, b ≠ []
  fresh : s.readChunkIdx = 0 ∧ s.lastChunkReadOffset = 0

theorem reads_start (file : Bytes) : Reads { file } := ⟨by simp, Nat.zero_le _, by simp, rfl, rfl⟩

variable {s' : InputFileStream}

theorem readCb_cases (h : s.readCb n = some s') :
    s.reading = true ∧ n ≤ maxPipePage ∧ n ≤ s.file.length - s.fsReadOffset ∧
      ((n = 0 ∧ s' = { s with reading := false }) ∨
        (n ≠ 0 ∧ s' = { s with bufs := s.bufs ++ [(s.file.drop s.fsReadOffset).take n], fsReadOffset := s.fsReadOffset + n })) := by
  simp only [readCb] at h
  split at h
  · rename_i hc
    refine ⟨hc.1, hc.2.1, hc.2.2, ?_⟩
    split at h
    · rename_i h0
      exact Or.inl ⟨h0, (Option.some.inj h).symm⟩
    · rename_i h0
      exact Or.inr ⟨h0, (Option.some.inj h).symm⟩
  · cases h

theorem reads_step (h : s.Reads) (hs : s.readCb n = some s') : s'.Reads := by
  obtain ⟨hb, hbound, hfill, hfresh⟩ := h
  obtain ⟨-, -, hle, ⟨-, rfl⟩ | ⟨hn, rfl⟩⟩ := readCb_cases hs
  · exact ⟨hb, hbound, hfill, hfresh⟩
  · refine ⟨?_, by simp; omega, ?_, hfresh⟩
    · simp only [flatten_append, flatten_singleton, hb]
      rw [← take_add]
    · intro b hmem
      rcases mem_append.mp hmem with hmem | hmem
      · exact hfill b hmem
      · rw [mem_singleton.mp hmem]
        intro hnil
        have := congrArg List.length hnil
        simp at this
        omega

end InputFileStream

end Aworker.Cache
