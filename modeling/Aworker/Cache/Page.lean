/-
  Aworker.Cache.Page — page files (aworker_cache.cc: `ParseCachePageHeader`, `ReadPage`,
  `WritePage`, and the handlers `ReadCachePage`, `ReadCacheObjectPage` on top of them).

  A page file is a header of fixed size and a message. The writer serializes both into an
  output stream; the reader parses both from an input stream that has been read to its end.
  Protobuf is a parameter (`PageFormat`).

  The reader stops the process when the first read is shorter than the header, and it
  reports success whether or not the message could be parsed.

  Main results: `page_round_trip`, `read_answers_iff`, `read_misanswers`.
-/

import Mathlib
import Aworker.Cache.FileStream

namespace Aworker.Cache

open Aworker.Lib Aworker.Fetch List OutputFileStream

/-! ## Pages -/

structure CachePageHeader where
  aworkerMagic : UInt32
  cacheDataVersion : UInt32
  deriving DecidableEq

def aworkerMagic : UInt32 := 0x736e6b69

def cacheDataVersion : UInt32 := 1

def cachePageHeaderSize : Nat := 10

def pageHeader : CachePageHeader := { aworkerMagic, cacheDataVersion }

/-- The messages of one kind of page. -/
structure PageFormat (T : Type) where
  serializeHeader : CachePageHeader → Bytes
  parseHeader : Bytes → Option CachePageHeader
  serialize : T → Bytes
  /-- what `ParseFromZeroCopyStream` leaves in the message, and what it returns -/
  parse : Bytes → T × Bool
  /-- what the page's handler `CHECK`s: `has_request() && has_response()` for an object page,
      nothing for an index page -/
  complete : T → Bool

/-- What protobuf promises of what it has serialized. -/
structure PageFormat.RoundTrips {T : Type} (F : PageFormat T) : Prop where
  size : (F.serializeHeader pageHeader).length = cachePageHeaderSize
  header : F.parseHeader (F.serializeHeader pageHeader) = some pageHeader
  page : ∀ page, F.parse (F.serialize page) = (page, true)

/-- The fields the handlers check are required ones: a message without them does not parse. -/
def PageFormat.Required {T : Type} (F : PageFormat T) : Prop := ∀ bytes, (F.parse bytes).2 = true → F.complete (F.parse bytes).1 = true

/-- `WritePage`, until it returns. -/
def writePage {header body : Bytes} (h : Serialized header) (b : Serialized body) : Option OutputFileStream := do
  let stream ← ({} : OutputFileStream).serialize h
  let stream ← stream.serialize b
  some stream.disposeAndDelete

inductive HeaderResult where
  /-- `CHECK_GE` failed -/
  | aborted
  | failed
  | parsed (stream : InputFileStream)

structure PageRead (T : Type) where
  stream : InputFileStream
  /-- calls of the page's callback; an error is its message -/
  calls : List (Except Text T) := []
  /-- the process was stopped by a `CHECK` -/
  aborted : Bool := false

variable {s : InputFileStream} {e : ReadEv} {bytes total : Bytes} {es : List ReadEv}

section

variable {T : Type} (F : PageFormat T) (path : Text)

def parseCachePageHeader (stream : InputFileStream) : HeaderResult :=
  match stream.next with
  | none => .failed
  | some (data, stream) =>
    if data.length < cachePageHeaderSize then .aborted
    else match F.parseHeader (data.take cachePageHeaderSize) with
      | none => .failed
      | some header =>
        if header.aworkerMagic ≠ aworkerMagic then .failed
        else if header.cacheDataVersion ≠ cacheDataVersion then .failed
        else .parsed (stream.backUp (data.length - cachePageHeaderSize))

/-- The callback of the stream, with the handler that it calls. -/
def onStream (s : PageRead T) : PageRead T :=
  match parseCachePageHeader F s.stream with
  | .aborted => { s with aborted := true }
  | .failed => { s with calls := s.calls ++ [.error ("unable to parse page header(".toList ++ path ++ ")".toList)] }
  | .parsed stream =>
    let page := (F.parse stream.contents).1
    { s with calls := s.calls ++ [.ok page], aborted := !F.complete page }

/-- `ReadPage`, until it returns. -/
def readPage (file : Option Bytes) : PageRead T :=
  match file with
  | none => { stream := { file := [], reading := false }, calls := [.error ("file not found(".toList ++ path ++ ")".toList)] }
  | some file => { stream := { file } }

def readStep (s : PageRead T) : ReadEv → Option (PageRead T)
  | .read n =>
    match s.stream.readCb n with
    | none => none
    | some stream => some (if n = 0 then onStream F path { s with stream } else { s with stream })
  -- logged, and nothing else
  | .failed => if s.stream.reading then some { s with stream := { s.stream with reading := false } } else none

/-! ## What the callback finds -/

def headerOk (bytes : Bytes) : Bool := F.parseHeader bytes = some pageHeader

/-- The header and the whole message can be parsed. -/
def wellFormed (file : Bytes) : Bool :=
  cachePageHeaderSize ≤ file.length && headerOk F (file.take cachePageHeaderSize) && (F.parse (file.drop cachePageHeaderSize)).2

variable {F}

theorem parseHeader_empty (hb : s.bufs = []) : parseCachePageHeader F s = .failed := by
  simp [parseCachePageHeader, InputFileStream.next, hb]

theorem parseHeader_first (hr : s.Reads) {first : Bytes} {bufs : List Bytes} (hb : s.bufs = first :: bufs) :
    if first.length < cachePageHeaderSize then parseCachePageHeader F s = .aborted
    else if headerOk F (s.bufs.flatten.take cachePageHeaderSize) then
      ∃ stream, parseCachePageHeader F s = .parsed stream ∧ stream.contents = s.bufs.flatten.drop cachePageHeaderSize
    else parseCachePageHeader F s = .failed := by
  obtain ⟨hidx, hoff⟩ := hr.fresh
  have hnext : s.next = some (first, { s with readChunkIdx := 1, lastChunkReadOffset := 0 }) := by
    simp [InputFileStream.next, hidx, hoff, hb]
  by_cases hshort : first.length < cachePageHeaderSize
  · rw [if_pos hshort]
    simp [parseCachePageHeader, hnext, hshort]
  · rw [if_neg hshort]
    have htake : s.bufs.flatten.take cachePageHeaderSize = first.take cachePageHeaderSize := by
      rw [hb, flatten_cons, take_append_of_le_length (by omega)]
    have hcontents := InputFileStream.drain_backUp (s := { s with readChunkIdx := 1, lastChunkReadOffset := 0 }) hb rfl (not_lt.mp hshort)
    rw [htake]
    cases hp : F.parseHeader (first.take cachePageHeaderSize) with
    | none => simp [parseCachePageHeader, hnext, hshort, headerOk, hp]
    | some header =>
      obtain ⟨magic, version⟩ := header
      by_cases hm : magic = aworkerMagic
      · by_cases hv : version = cacheDataVersion
        · subst hm hv
          simpa [parseCachePageHeader, hnext, hshort, headerOk, hp, pageHeader] using hcontents
        · simp [parseCachePageHeader, hnext, hshort, headerOk, hp, pageHeader, hm, hv]
      · simp [parseCachePageHeader, hnext, hshort, headerOk, hp, pageHeader, hm]

/-! ## Runs of reads -/

/-- A read returns nothing only at the end of the file. -/
def Honest (s : PageRead T) : ReadEv → Prop
  | .read n => n = 0 → s.stream.fsReadOffset = s.stream.file.length
  | .failed => False

def readSizes : List ReadEv → List Nat
  | [] => []
  | .read n :: es => if n = 0 then readSizes es else n :: readSizes es
  | .failed :: es => readSizes es

theorem readSizes_snoc (es : List ReadEv) (n : Nat) : readSizes (es ++ [.read n]) = readSizes es ++ if n = 0 then [] else [n] := by
  induction es with
  | nil => rfl
  | cons e es ih =>
    cases e with
    | failed => exact ih
    | read m =>
      simp only [cons_append, readSizes, ih]
      split <;> rfl

variable (F)

/-- A reader of `bytes` after the reads `es`. -/
structure ReadOf (bytes : Bytes) (s : PageRead T) (es : List ReadEv) : Prop where
  file : s.stream.file = bytes
  reads : s.stream.Reads
  sizes : s.stream.bufs.map List.length = readSizes es
  going : s.stream.reading = true → s.calls = [] ∧ s.aborted = false
  ended : s.stream.reading = false → s.stream.fsReadOffset = bytes.length ∧ s = onStream F path { stream := s.stream }

variable {F path}

variable {s' : PageRead T}

theorem readStep_cases {s : PageRead T} (hq : Honest s e) (hs : readStep F path s e = some s') :
    ∃ n stream, e = .read n ∧ s.stream.readCb n = some stream ∧
      s' = if n = 0 then onStream F path { s with stream } else { s with stream } := by
  cases e with
  | failed => exact hq.elim
  | read n =>
    simp only [readStep] at hs
    split at hs
    · cases hs
    · rename_i stream hcb
      exact ⟨n, stream, rfl, hcb, (Option.some.inj hs).symm⟩

@[simp] theorem onStream_stream (s : PageRead T) : (onStream F path s).stream = s.stream := by
  unfold onStream
  split <;> rfl

theorem readOf_step (s : PageRead T) (es : List ReadEv) (e : ReadEv) (s' : PageRead T) (h : ReadOf F path bytes s es)
    (hq : Honest s e) (hs : readStep F path s e = some s') : ReadOf F path bytes s' (es ++ [e]) := by
  obtain ⟨hfile, hreads, hsizes, hgoing, -⟩ := h
  obtain ⟨n, stream, rfl, hcb, rfl⟩ := readStep_cases hq hs
  have hreads' := InputFileStream.reads_step hreads hcb
  obtain ⟨hreading, -, hle, ⟨rfl, rfl⟩ | ⟨hn, rfl⟩⟩ := InputFileStream.readCb_cases hcb
  · obtain ⟨hcalls, hab⟩ := hgoing hreading
    have hoff : s.stream.fsReadOffset = bytes.length := by rw [hq rfl, hfile]
    rw [if_pos rfl]
    refine ⟨by simpa using hfile, by simpa using hreads', by simpa [readSizes_snoc] using hsizes, by simp, fun _ => ⟨by simpa using hoff, ?_⟩⟩
    rw [onStream_stream, hcalls, hab]
  · rw [if_neg hn]
    refine ⟨hfile, hreads', ?_, hgoing, fun hf => by rw [hreading] at hf; cases hf⟩
    have hlen : ((s.stream.file.drop s.stream.fsReadOffset).take n).length = n := by simp; omega
    rw [readSizes_snoc, if_neg hn, map_append, hsizes, map_singleton, hlen]

theorem readOf_start (bytes : Bytes) : ReadOf F path bytes (readPage path (some bytes)) [] :=
  ⟨rfl, InputFileStream.reads_start bytes, rfl, fun _ => ⟨rfl, rfl⟩, nofun⟩

variable {t : PageRead T}

theorem readOf_run (hr : run (readStep F path) (readPage path (some bytes)) es = some t)
    (ha : Along (readStep F path) Honest (readPage path (some bytes)) es) : ReadOf F path bytes t es :=
  run_history_along (J := ReadOf F path bytes) (fun s es e s' hj hq hs => readOf_step s es e s' hj hq hs) (readOf_start bytes) ha hr

theorem readOf_ended {s : PageRead T} (h : ReadOf F path bytes s es) (he : s.stream.reading = false) :
    if ∃ n ∈ (readSizes es).head?, n < cachePageHeaderSize then s.calls = [] ∧ s.aborted = true
    else if cachePageHeaderSize ≤ bytes.length ∧ headerOk F (bytes.take cachePageHeaderSize) = true then
      s.calls = [.ok (F.parse (bytes.drop cachePageHeaderSize)).1] ∧
        s.aborted = !F.complete (F.parse (bytes.drop cachePageHeaderSize)).1
    else s.calls = [.error ("unable to parse page header(".toList ++ path ++ ")".toList)] ∧ s.aborted = false := by
  obtain ⟨hfile, hreads, hsizes, -, hended⟩ := h
  obtain ⟨hoff, hs⟩ := hended he
  have hflat : s.stream.bufs.flatten = bytes := by rw [hreads.bytes, hfile, hoff, take_length]
  cases hb : s.stream.bufs with
  | nil =>
    have hbytes : bytes = [] := by rw [← hflat, hb]; rfl
    have hheader := parseHeader_empty (F := F) hb
    rw [hb] at hsizes
    rw [hs]
    simp [onStream, hheader, ← hsizes, hbytes, cachePageHeaderSize]
  | cons first bufs =>
    have hhead : (readSizes es).head? = some first.length := by rw [← hsizes, hb]; rfl
    have hheader := parseHeader_first (F := F) hreads hb
    rw [hflat] at hheader
    by_cases hshort : first.length < cachePageHeaderSize
    · rw [if_pos hshort] at hheader
      rw [if_pos ⟨first.length, by simp [hhead], hshort⟩, hs]
      simp [onStream, hheader]
    · have hlen : cachePageHeaderSize ≤ bytes.length := by
        have := congrArg List.length hflat
        rw [hb, flatten_cons, length_append] at this
        omega
      rw [if_neg hshort] at hheader
      rw [if_neg (by simpa [hhead] using hshort)]
      cases hok : headerOk F (bytes.take cachePageHeaderSize) with
      | true =>
        rw [hok, if_pos rfl] at hheader
        obtain ⟨stream, hparsed, hcontents⟩ := hheader
        rw [if_pos ⟨hlen, rfl⟩, hs]
        simp [onStream, hparsed, hcontents]
      | false =>
        rw [hok, if_neg Bool.false_ne_true] at hheader
        rw [if_neg (by simp), hs]
        simp [onStream, hheader]

def PageRead.left (s : PageRead T) : Nat := s.stream.file.length - s.stream.fsReadOffset + s.stream.reading.toNat

theorem left_step {s : PageRead T} (hq : Honest s e) (hs : readStep F path s e = some s') : s'.left < s.left := by
  obtain ⟨n, stream, rfl, hcb, rfl⟩ := readStep_cases hq hs
  obtain ⟨hreading, -, hle, ⟨rfl, rfl⟩ | ⟨hn, rfl⟩⟩ := InputFileStream.readCb_cases hcb
  · simp [PageRead.left, hreading]
  · simp only [PageRead.left, hn, if_false]
    omega

def PageRead.most (s : PageRead T) : Nat := min maxPipePage (s.stream.file.length - s.stream.fsReadOffset)

variable (F path) in
theorem read_progress {s : PageRead T} (hr : s.stream.reading = true) (hb : s.stream.fsReadOffset ≤ s.stream.file.length) :
    Honest s (.read s.most) ∧ ∃ s', readStep F path s (.read s.most) = some s' := by
  have hsome : ∃ stream, s.stream.readCb s.most = some stream := by
    simp only [PageRead.most, InputFileStream.readCb, hr, min_le_left, min_le_right, and_self, if_true]
    split <;> exact ⟨_, rfl⟩
  obtain ⟨stream, hstream⟩ := hsome
  refine ⟨fun h0 => ?_, ?_⟩
  · have : maxPipePage = 65536 := rfl
    unfold PageRead.most at h0
    omega
  · simp only [readStep, hstream]
    exact ⟨_, rfl⟩

/-! ## The answer -/

variable (F) in
/-- The callback was called once, with a page exactly if the file is one, and no `CHECK` failed. -/
def Answers (file : Bytes) (t : PageRead T) : Prop :=
  t.aborted = false ∧ ∃ r, t.calls = [r] ∧ (r.isOk = true ↔ wellFormed F file = true)

variable (F) in
/-- The first read holds the header, and under a good header there is a whole message. -/
def Readable (file : Bytes) (es : List ReadEv) : Prop :=
  (∀ n ∈ (readSizes es).head?, cachePageHeaderSize ≤ n) ∧
    (cachePageHeaderSize ≤ file.length → headerOk F (file.take cachePageHeaderSize) = true →
      (F.parse (file.drop cachePageHeaderSize)).2 = true)

variable (F path) in
theorem read_completes (bytes : Bytes) :
    Completes (readStep F path) Honest (readPage path (some bytes)) (fun t => t.stream.reading = false) := by
  refine completes_of_measure (I := fun s : PageRead T => s.stream.Reads) (m := PageRead.left) ?_ ?_ ?_ (InputFileStream.reads_start bytes)
  · intro s e s' hreads hq hs
    obtain ⟨n, stream, rfl, hcb, rfl⟩ := readStep_cases hq hs
    have := InputFileStream.reads_step hreads hcb
    split
    · simpa using this
    · exact this
  · intro s e s' _ hq hs
    exact left_step hq hs
  · intro s hreads
    cases hr : s.stream.reading with
    | false => exact Or.inl rfl
    | true =>
      obtain ⟨hq, s', hs'⟩ := read_progress F path hr hreads.bound
      exact Or.inr ⟨_, s', hq, hs'⟩

/-- Reading any file, in any split: every run of the reads comes to an end; before it nothing
    has been called; and then the page has been answered for exactly if it is `Readable`. -/
theorem read_answers_iff (hF : F.Required) (path : Text) (file : Bytes) :
    Completes (readStep F path) Honest (readPage path (some file)) (fun t => t.stream.reading = false) ∧
    ∀ es t, run (readStep F path) (readPage path (some file)) es = some t →
      Along (readStep F path) Honest (readPage path (some file)) es →
      (t.stream.reading = true → t.calls = [] ∧ t.aborted = false) ∧
      (t.stream.reading = false → (Answers F file t ↔ Readable F file es)) := by
  refine ⟨read_completes F path file, fun es t hr ha => ?_⟩
  have hof := readOf_run hr ha
  refine ⟨hof.going, fun he => ?_⟩
  have hend := readOf_ended hof he
  by_cases hshort : ∃ n ∈ (readSizes es).head?, n < cachePageHeaderSize
  · -- stopped by `CHECK_GE`
    rw [if_pos hshort] at hend
    obtain ⟨n, hn, hlt⟩ := hshort
    constructor
    · intro h
      exact absurd h.1 (by rw [hend.2]; simp)
    · intro h
      have := h.1 n hn
      omega
  · rw [if_neg hshort] at hend
    have hfirst : ∀ n ∈ (readSizes es).head?, cachePageHeaderSize ≤ n := fun n hn => not_lt.mp fun hlt => hshort ⟨n, hn, hlt⟩
    by_cases hheader : cachePageHeaderSize ≤ file.length ∧ headerOk F (file.take cachePageHeaderSize) = true
    · rw [if_pos hheader] at hend
      obtain ⟨hcalls, haborted⟩ := hend
      have hwell : wellFormed F file = (F.parse (file.drop cachePageHeaderSize)).2 := by simp [wellFormed, hheader.1, hheader.2]
      constructor
      · rintro ⟨-, r, hr, hiff⟩
        rw [hcalls] at hr
        obtain rfl := (List.cons.inj hr).1
        refine ⟨hfirst, fun _ _ => ?_⟩
        rw [← hwell]
        exact hiff.mp rfl
      · intro h
        have hbody := h.2 hheader.1 hheader.2
        refine ⟨by rw [haborted, hF _ hbody]; rfl, _, hcalls, ?_⟩
        rw [hwell, hbody]
        exact Iff.rfl
    · rw [if_neg hheader] at hend
      have hwell : wellFormed F file = false := by
        by_contra hn
        simp only [wellFormed, Bool.not_eq_false, Bool.and_eq_true, decide_eq_true_eq] at hn
        exact hheader ⟨hn.1.1, hn.1.2⟩
      refine ⟨fun _ => ⟨hfirst, fun h1 h2 => absurd ⟨h1, h2⟩ hheader⟩, fun _ => ⟨hend.2, _, hend.1, ?_⟩⟩
      rw [hwell]
      exact Iff.rfl

/-! ## The round trip -/

/-- A read returns something unless it is at the end, and the first one at least the header. -/
def Moves (s : PageRead T) : ReadEv → Prop
  | .read n => (n = 0 → s.stream.fsReadOffset = s.stream.file.length) ∧ (s.stream.fsReadOffset = 0 → n ≠ 0 → cachePageHeaderSize ≤ n)
  | .failed => False

theorem honest_of_moves {s : PageRead T} (h : Moves s e) : Honest s e := by
  cases e with
  | read n => exact h.1
  | failed => exact h

theorem writePage_pending {header body : Bytes} (h : Serialized header) (b : Serialized body) (hne : header ≠ []) :
    ∃ s, writePage h b = some s ∧ s.Pending (header ++ body) := by
  obtain ⟨s₁, h1, hc1, hr1, -⟩ := serialize_queue (s := {}) ⟨⟨rfl, rfl, rfl, rfl⟩, rfl, rfl, by simp⟩ h
  obtain ⟨s₂, h2, hc2, hr2, -⟩ := serialize_queue hc1 b
  obtain ⟨⟨hf, hw, hwr, he⟩, hd, hi, hq⟩ := hc2
  have hrest : s₂.rest = header ++ body := by
    rw [hr2, hr1]
    rfl
  have hqueue : s₂.queue ≠ [] := by
    intro hnil
    rw [rest, hnil] at hrest
    exact hne (append_eq_nil_iff.mp hrest.symm).1
  have hww : s₂.waitingForWrite = true := hq.mpr hqueue
  refine ⟨{ s₂ with waitingForDispose := true }, ?_, ?_⟩
  · simp [writePage, h1, h2, disposeAndDelete, hww]
  · refine ⟨?_, by simp [hf, hw], hqueue, ⟨hww, rfl⟩, by simp [hi, hww, hwr], he⟩
    show s₂.file ++ s₂.rest = _
    rw [hf, hrest]
    rfl

theorem write_inv (total : Bytes) (s : OutputFileStream) (e : WriteEv) (s' : OutputFileStream)
    (hi : s.Pending total ∨ s.Finished total) (ht : s.Transfers e) (hs : writeStep s e = some s') :
    s'.Pending total ∨ s'.Finished total := by
  rcases hi with hp | hf
  · exact write_step hp (by rintro rfl; exact ht) hs
  · rw [finished_stuck hf] at hs
    cases hs

theorem write_completes {s : OutputFileStream} (h : s.Pending total) :
    Completes writeStep Transfers s (fun s => s.ended = 1) := by
  refine completes_of_measure (m := measure) (write_inv total) ?_ ?_ (Or.inl h)
  · intro s e s' _ ht hs
    exact write_measure ht hs
  · intro s hi
    rcases hi with hp | hf
    · exact Or.inr (write_progress hp)
    · exact Or.inl hf.once

theorem written_file {s t : OutputFileStream} {es : List WriteEv} (h : s.Pending total)
    (hr : run writeStep s es = some t) (ha : Along writeStep Transfers s es) (he : t.ended = 1) : t.file = total := by
  rcases run_inv (write_inv total) (Or.inl h) ha hr with hp | hf
  · rw [hp.notYet] at he
    cases he
  · exact hf.contents

theorem moves_first {s : PageRead T} (h0 : s.stream.Reads ∧ ∀ b ∈ s.stream.bufs.head?, cachePageHeaderSize ≤ b.length)
    (ha : Along (readStep F path) Moves s es) (hr : run (readStep F path) s es = some t) :
    t.stream.Reads ∧ ∀ b ∈ t.stream.bufs.head?, cachePageHeaderSize ≤ b.length := by
  refine run_inv (I := fun s : PageRead T => s.stream.Reads ∧ ∀ b ∈ s.stream.bufs.head?, cachePageHeaderSize ≤ b.length) ?_ h0 ha hr
  rintro s e s' ⟨hreads, hfirst⟩ hm hs
  obtain ⟨n, stream, rfl, hcb, rfl⟩ := readStep_cases (honest_of_moves hm) hs
  have hreads' := InputFileStream.reads_step hreads hcb
  obtain ⟨-, -, hle, ⟨rfl, rfl⟩ | ⟨hn, rfl⟩⟩ := InputFileStream.readCb_cases hcb
  · rw [if_pos rfl, onStream_stream]
    exact ⟨hreads', hfirst⟩
  · rw [if_neg hn]
    refine ⟨hreads', fun b hb => ?_⟩
    cases hbufs : s.stream.bufs with
    | cons first bufs =>
      simp only [hbufs, cons_append, head?_cons] at hb
      exact hfirst b (by simpa [hbufs] using hb)
    | nil =>
      -- nothing was read before, so this is the first read
      have hoff : s.stream.fsReadOffset = 0 := by
        have hlen := congrArg List.length hreads.bytes
        have hbound := hreads.bound
        rw [hbufs, length_take, flatten_nil, length_nil] at hlen
        omega
      have hge := hm.2 hoff hn
      simp only [hbufs, nil_append, head?_cons, Option.mem_def, Option.some.injEq] at hb
      rw [← hb, length_take, length_drop]
      omega

theorem sizes_head {s : PageRead T} (h : ReadOf F path bytes s es) :
    (readSizes es).head? = s.stream.bufs.head?.map List.length := by
  rw [← h.sizes, head?_map]

/-- A page that was written is read back: the write comes to its callback, and after it every
    read of the file comes to its callback, with the page and nothing else. -/
theorem page_round_trip (hF : F.RoundTrips) (path : Text) (page : T) (header : Serialized (F.serializeHeader pageHeader))
    (body : Serialized (F.serialize page)) :
    ∃ s₀, writePage header body = some s₀ ∧ Completes writeStep Transfers s₀ (fun s => s.ended = 1) ∧
      ∀ es s, run writeStep s₀ es = some s → Along writeStep Transfers s₀ es → s.ended = 1 →
        Completes (readStep F path) Moves (readPage path (some s.file)) (fun t => t.calls = [.ok page]) ∧
        ∀ rs t, run (readStep F path) (readPage path (some s.file)) rs = some t →
          Along (readStep F path) Moves (readPage path (some s.file)) rs → t.calls = [] ∨ t.calls = [.ok page] := by
  have hne : F.serializeHeader pageHeader ≠ [] := by
    intro hnil
    have := hF.size
    rw [hnil] at this
    cases this
  obtain ⟨s₀, hs₀, hpending⟩ := writePage_pending header body hne
  refine ⟨s₀, hs₀, write_completes hpending, fun es s hr ha hended => ?_⟩
  have hfile := written_file hpending hr ha hended
  have htake : s.file.take cachePageHeaderSize = F.serializeHeader pageHeader := by rw [hfile, ← hF.size, take_left]
  have hdrop : s.file.drop cachePageHeaderSize = F.serialize page := by rw [hfile, ← hF.size, drop_left]
  have hlen : cachePageHeaderSize ≤ s.file.length := by rw [hfile, length_append, hF.size]; omega
  have hok : headerOk F (s.file.take cachePageHeaderSize) = true := by simp [headerOk, htake, hF.header]
  have hanswer : ∀ rs t, run (readStep F path) (readPage path (some s.file)) rs = some t →
      Along (readStep F path) Moves (readPage path (some s.file)) rs →
      (t.stream.reading = true → t.calls = []) ∧ (t.stream.reading = false → t.calls = [.ok page]) ∧
        t.stream.file = s.file ∧ t.stream.Reads := by
    intro rs t hrt hat
    have hof := readOf_run hrt (along_mono (fun _ _ => honest_of_moves) hat)
    obtain ⟨hreads, hfirst⟩ := moves_first ⟨InputFileStream.reads_start s.file, by simp [readPage]⟩ hat hrt
    refine ⟨fun hr => (hof.going hr).1, fun hr => ?_, hof.file, hreads⟩
    have hend := readOf_ended hof hr
    rw [if_neg (by rw [sizes_head hof]; simpa using hfirst), if_pos ⟨hlen, hok⟩, hdrop, hF.page page] at hend
    exact hend.1
  refine ⟨?_, fun rs t hrt hat => ?_⟩
  · obtain ⟨bound, hbound⟩ := read_completes F path s.file
    refine ⟨bound, fun rs t hrt hat => ⟨(hbound rs t hrt (along_mono (fun _ _ => honest_of_moves) hat)).1, ?_⟩⟩
    obtain ⟨hgoing, hend, hf, hreads⟩ := hanswer rs t hrt hat
    cases hr : t.stream.reading with
    | false => exact Or.inl (hend hr)
    | true =>
      obtain ⟨hq, t', ht'⟩ := read_progress F path hr hreads.bound
      refine Or.inr ⟨.read t.most, t', ⟨hq, fun h0 _ => ?_⟩, ht'⟩
      rw [PageRead.most, h0, hf]
      have : maxPipePage = 65536 := rfl
      unfold cachePageHeaderSize at hlen ⊢
      omega
  · obtain ⟨hgoing, hend, -, -⟩ := hanswer rs t hrt hat
    cases hr : t.stream.reading with
    | true => exact Or.inl (hgoing hr)
    | false => exact Or.inr (hend hr)

end

/-! ## Fixed files -/

/-- Pages that are their own bytes; a message that ends with a zero does not parse. -/
def rawPages : PageFormat Bytes where
  serializeHeader _ := List.replicate 10 7
  parseHeader bytes := if bytes = List.replicate 10 7 then some pageHeader else none
  serialize page := page ++ [1]
  parse bytes := (bytes.dropLast, bytes.getLast? = some 1)
  complete _ := true

theorem rawPages_roundTrips : rawPages.RoundTrips := ⟨rfl, rfl, fun page => by simp [rawPages]⟩

theorem rawPages_required : rawPages.Required := fun _ _ => rfl

def Serialized.single (bytes : Bytes) (h : bytes.length ≤ maxPipePage) : Serialized bytes where
  pages := [⟨bytes ++ List.replicate (maxPipePage - bytes.length) 0, by simp; omega⟩]
  unused := maxPipePage - bytes.length
  contents := ⟨List.replicate (maxPipePage - bytes.length) 0, by simp, by simp⟩
  small := Nat.sub_le ..

theorem page_round_trip_single :
    ∃ s₀, writePage (Serialized.single (rawPages.serializeHeader pageHeader) (by decide))
        (Serialized.single (rawPages.serialize [2, 3]) (by decide)) = some s₀ ∧
      Completes writeStep Transfers s₀ (fun s => s.ended = 1) := by
  obtain ⟨s₀, h, hc, -⟩ := page_round_trip rawPages_roundTrips "page".toList [2, 3] (Serialized.single _ (by decide)) (Serialized.single _ (by decide))
  exact ⟨s₀, h, hc⟩

/-- Twelve bytes in two reads. -/
theorem read_answers_two_reads :
    ∃ t, run (readStep rawPages []) (readPage [] (some (List.replicate 10 7 ++ [2, 1]))) [.read 11, .read 1, .read 0] = some t ∧
      Answers rawPages (List.replicate 10 7 ++ [2, 1]) t := by
  refine ⟨_, rfl, ?_⟩
  have h := (read_answers_iff rawPages_required [] (List.replicate 10 7 ++ [2, 1])).2 [.read 11, .read 1, .read 0] _ rfl
    ⟨nofun, nofun, fun _ => rfl, trivial⟩
  exact (h.2 rfl).mpr ⟨by simp [readSizes, cachePageHeaderSize], fun _ _ => rfl⟩

/-- A file of one byte stops the process; a message that does not parse is a success. -/
theorem read_misanswers :
    (∃ t, run (readStep rawPages []) (readPage [] (some [7])) [.read 1, .read 0] = some t ∧ t.aborted = true ∧ t.calls.length = 0) ∧
    (∃ t page, run (readStep rawPages []) (readPage [] (some (List.replicate 10 7 ++ [2, 0]))) [.read 12, .read 0] = some t ∧
      t.calls = [.ok page] ∧ (rawPages.parse [2, 0]).2 = false) :=
  ⟨⟨_, rfl, rfl, rfl⟩, ⟨_, [2], rfl, rfl, rfl⟩⟩

end Aworker.Cache
