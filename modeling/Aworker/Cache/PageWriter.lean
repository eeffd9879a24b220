/-
  Aworker.Cache.PageWriter — the output stream between `Create` and `on_end`
  (zero_copy_file_stream.cc: `Next`, `BackUp`, `DisposeAndDelete`, `IdleCb`, `WriteNext`, `WriteCb`).

  A caller takes buffers and gives the ends of them back, each right after it got the buffer, and
  releases the stream at last. The loop may run before that. A write takes at least one byte of
  what it is given, unless that is empty.

  Main result: `page_written`.
-/

import Mathlib
import Aworker.Lib.Run
import Aworker.Cache.FileStream

namespace Aworker.Cache

open Aworker.Lib Aworker.Fetch List Option

structure Writer where
  stream : OutputFileStream := {}
  /-- the buffers that were handed out, without what was given back -/
  given : List Bytes := []
  /-- the last call was `Next` -/
  fresh : Bool := false
  /-- the writes that were issued: where, and what -/
  requests : List (Nat × Bytes) := []
  /-- how much the writes took that are done -/
  results : List Nat := []

inductive WriterEv where
  | next (page : Page)
  | backUp (count : Nat)
  /-- the stream pointer is released -/
  | dispose
  | idle
  | wrote (n : Nat)

/-- What `WriteNext` asks for. -/
def OutputFileStream.request (s : OutputFileStream) : List (Nat × Bytes) := (s.queue.head?.map fun b => (s.writtenCount, b.rest)).toList

def writerStep (w : Writer) : WriterEv → Option Writer
  | .next page => (w.stream.next page).map fun stream => { w with stream, given := w.given ++ [page.val], fresh := true }
  | .backUp count =>
    if w.fresh = true ∧ count ≤ maxPipePage then
      (w.stream.backUp count).map fun stream =>
        { w with stream, given := w.given.dropLast ++ (w.given.getLast?.map (·.take (maxPipePage - count))).toList, fresh := false }
    else none
  | .dispose => if w.stream.waitingForDispose then none else some { w with stream := w.stream.disposeAndDelete, fresh := false }
  | .idle => w.stream.idleCb.map fun stream => { w with stream, fresh := false, requests := w.requests ++ stream.request }
  | .wrote n => (w.stream.writeCb n).map fun stream =>
      { w with stream, fresh := false, requests := w.requests ++ if stream.writing then stream.request else [], results := w.results ++ [n] }

/-- A write takes a byte, if it is given one. -/
def Taking (w : Writer) : WriterEv → Prop
  | .wrote n => w.stream.Transfers (.wrote n)
  | _ => True

namespace Writer

open OutputFileStream

variable {w w' : Writer} {s s' : OutputFileStream} {n count : Nat}

/-! ## At any time -/

structure Ok (w : Writer) : Prop where
  contents : w.stream.file ++ w.stream.rest = w.given.flatten
  offset : w.stream.file.length = w.stream.writtenCount
  /-- something is queued: the idle handle is active, or a write is outstanding -/
  queued : w.stream.queue ≠ [] → w.stream.waitingForWrite = true ∧ w.stream.idle = !w.stream.writing
  quiet : w.stream.queue = [] → w.stream.waitingForWrite = false ∧ w.stream.idle = false ∧ w.stream.writing = false
  /-- nothing of the last buffer has been asked to be written -/
  last : w.fresh = true → w.stream.waitingForDispose = false ∧ ∃ queue page given, w.stream.queue = queue ++ [Page.buf page] ∧
    w.given = given ++ [page.val] ∧ (queue = [] → w.stream.writing = false)
  ended : w.stream.ended = if w.stream.waitingForDispose = true ∧ w.stream.queue = [] then 1 else 0
  total : w.results.sum = w.stream.writtenCount
  oneAtATime : w.requests.length = w.results.length + w.stream.writing.toNat
  offsets : ∀ k r, w.requests[k]? = some r → r.1 = (w.results.take k).sum
  outstanding : w.stream.writing = true → w.requests.getLast? = w.stream.queue.head?.map fun b => (w.stream.writtenCount, b.rest)

theorem start_ok : Ok {} where
  contents := rfl
  offset := rfl
  queued h := absurd rfl h
  quiet _ := ⟨rfl, rfl, rfl⟩
  last := nofun
  ended := rfl
  total := rfl
  oneAtATime := rfl
  offsets _ _ h := by simp at h
  outstanding := nofun

theorem next_eq {page : Page} (hs : s.next page = some s') : s.waitingForDispose = false ∧
    s' = { s with queue := s.queue ++ [page.buf], waitingForWrite := true, idle := s.idle || !s.waitingForWrite } := by
  obtain ⟨hd, hs⟩ := ite_none_left_eq_some.mp hs
  refine ⟨Bool.eq_false_of_not_eq_true hd, ?_⟩
  rw [← Option.some.inj hs]
  unfold setWritingForWrite
  cases hw : s.waitingForWrite <;> simp

theorem Ok.next (h : Ok w) {page : Page} (hs : writerStep w (.next page) = some w') : Ok w' := by
  obtain ⟨stream, hstream, rfl⟩ := map_eq_some_iff.mp hs
  obtain ⟨hd, rfl⟩ := next_eq hstream
  refine ⟨?_, h.offset, fun _ => ?_, fun hq => ?_, fun _ => ?_, ?_, h.total, h.oneAtATime, h.offsets, fun hw => ?_⟩
  · simp only [rest, map_append, flatten_append, ← h.contents]
    simp
  · refine ⟨rfl, ?_⟩
    by_cases hq : w.stream.queue = []
    · obtain ⟨hww, hi, hwr⟩ := h.quiet hq
      simp [hww, hi, hwr]
    · obtain ⟨hww, hi⟩ := h.queued hq
      simp [hww, hi]
  · simp at hq
  · exact ⟨hd, w.stream.queue, page, w.given, rfl, rfl, fun hq => (h.quiet hq).2.2⟩
  · simp [h.ended, hd]
  · have hq : w.stream.queue ≠ [] := fun hq => by
      rw [(h.quiet hq).2.2] at hw
      cases hw
    rw [h.outstanding hw, head?_append_of_ne_nil _ hq]

/-- The buffer that `BackUp` finds is the one `Next` has just handed out. -/
theorem Ok.backUp_eq (h : Ok w) (hf : w.fresh = true) (count : Nat) :
    ∃ queue page given, w.stream.queue = queue ++ [Page.buf page] ∧ w.given = given ++ [page.val] ∧ (queue = [] → w.stream.writing = false) ∧
      w.stream.backUp count = some { w.stream with queue := queue ++ [page.buf.shrink count rfl] } := by
  obtain ⟨-, queue, page, given, hq, hg, hwr⟩ := h.last hf
  have hwritten : page.buf.written = 0 := rfl
  exact ⟨queue, page, given, hq, hg, hwr, by simp [backUp, hq, hwritten]⟩

theorem Ok.backUp (h : Ok w) (hs : writerStep w (.backUp count) = some w') : Ok w' := by
  obtain ⟨⟨hf, -⟩, hs⟩ := ite_none_right_eq_some.mp hs
  obtain ⟨stream, hstream, rfl⟩ := map_eq_some_iff.mp hs
  obtain ⟨queue, page, given, hq, hg, hwr, he⟩ := h.backUp_eq hf count
  obtain rfl := Option.some.inj (he.symm.trans hstream)
  have hne : w.stream.queue ≠ [] := by simp [hq]
  have hc := h.contents
  refine ⟨?_, h.offset, fun _ => h.queued hne, fun hq => by simp at hq, nofun, ?_, h.total, h.oneAtATime, h.offsets, fun hw => ?_⟩
  · simp only [rest, hq, hg, map_append, flatten_append, map_singleton, flatten_singleton, Page.rest_buf,
      ← append_assoc] at hc
    have hkept := append_cancel_right hc
    simp only [rest, hg, map_append, flatten_append, map_singleton, flatten_singleton,
      rest_shrink, ← append_assoc, hkept]
    simp
  · simp [h.ended, hne]
  · have hqueue : queue ≠ [] := fun hnil => by
      rw [hwr hnil] at hw
      cases hw
    rw [h.outstanding hw, hq, head?_append_of_ne_nil _ hqueue, head?_append_of_ne_nil _ hqueue]

theorem Ok.dispose (h : Ok w) (hs : writerStep w .dispose = some w') : Ok w' := by
  obtain ⟨hd, hs⟩ := ite_none_left_eq_some.mp hs
  cases hs
  have hended : w.stream.ended = 0 := by simp [h.ended, hd]
  simp only [disposeAndDelete]
  by_cases hq : w.stream.queue = []
  · rw [if_neg (by simp [(h.quiet hq).1])]
    exact ⟨h.contents, h.offset, h.queued, h.quiet, fun hf => absurd hf Bool.false_ne_true, by simp [close, hended, hq],
      h.total, h.oneAtATime, h.offsets, h.outstanding⟩
  · rw [if_pos (h.queued hq).1]
    exact ⟨h.contents, h.offset, h.queued, h.quiet, fun hf => absurd hf Bool.false_ne_true, by simp [hended, hq], h.total,
      h.oneAtATime, h.offsets, h.outstanding⟩

theorem offsets_request {requests : List (Nat × Bytes)} {results : List Nat} (h : ∀ k r, requests[k]? = some r → r.1 = (results.take k).sum)
    (hlen : requests.length = results.length) (b : Bytes) :
    ∀ k r, (requests ++ [(results.sum, b)])[k]? = some r → r.1 = (results.take k).sum := by
  intro k r hr
  rcases Nat.lt_or_ge k requests.length with hlt | hge
  · rw [getElem?_append_left hlt] at hr
    exact h k r hr
  · have hk : k = requests.length := by
      have := (List.getElem?_eq_some_iff.mp hr).1
      rw [length_append, length_singleton] at this
      omega
    subst hk
    rw [getElem?_concat_length] at hr
    rw [← Option.some.inj hr, hlen, take_length]

theorem request_eq {b : ZeroCopyStreamBuf} {queue : List ZeroCopyStreamBuf} (h : s.queue = b :: queue) : s.request = [(s.writtenCount, b.rest)] := by
  simp [request, h]

theorem Ok.idle (h : Ok w) (hs : writerStep w .idle = some w') : Ok w' := by
  obtain ⟨stream, hstream, rfl⟩ := map_eq_some_iff.mp hs
  obtain ⟨hi, rfl⟩ := idleCb_cases hstream
  have hq : w.stream.queue ≠ [] := fun hq => by
    rw [(h.quiet hq).2.1] at hi
    cases hi
  obtain ⟨hww, hactive⟩ := h.queued hq
  have hwr : w.stream.writing = false := by simpa [hi] using hactive
  have hlen : w.requests.length = w.results.length := by simpa [hwr] using h.oneAtATime
  obtain ⟨b, queue, hbq⟩ := exists_cons_of_ne_nil hq
  rw [request_eq (show ({ w.stream.writeNext with idle := false } : OutputFileStream).queue = b :: queue from hbq)]
  refine ⟨h.contents, h.offset, fun _ => ⟨hww, rfl⟩, fun hnil => absurd hnil hq, nofun, h.ended, h.total, ?_, ?_, fun _ => ?_⟩
  · simp [writeNext, hlen]
  · rw [show ({ w.stream.writeNext with idle := false } : OutputFileStream).writtenCount = w.results.sum from h.total.symm]
    exact offsets_request h.offsets hlen b.rest
  · simp [writeNext, hbq]

theorem Ok.wrote (h : Ok w) (hs : writerStep w (.wrote n) = some w') : Ok w' := by
  obtain ⟨stream, hstream, rfl⟩ := map_eq_some_iff.mp hs
  obtain ⟨b, queue, -, hqueue, hwriting, -, hcount, -, hidle, hd, hend⟩ := writeCb_cases hstream
  obtain ⟨hcontents, hoffset⟩ := writeCb_contents h.offset hstream
  have hne : w.stream.queue ≠ [] := by simp [hqueue]
  obtain ⟨hww, hactive⟩ := h.queued hne
  have hidle : stream.idle = false := by rw [hidle, hactive, hwriting]; rfl
  have hended : w.stream.ended = 0 := by simp [h.ended, hne]
  have htotal : (w.results ++ [n]).sum = stream.writtenCount := by simp [h.total, hcount]
  have hlen : w.requests.length = (w.results ++ [n]).length := by simpa [hwriting] using h.oneAtATime
  have hold : ∀ k r, w.requests[k]? = some r → r.1 = ((w.results ++ [n]).take k).sum := by
    intro k r hr
    have hlt := (List.getElem?_eq_some_iff.mp hr).1
    rw [hlen, length_append, length_singleton] at hlt
    rw [take_append_of_le_length (Nat.le_of_lt_succ hlt)]
    exact h.offsets k r hr
  by_cases hnil : stream.queue = []
  · rw [if_pos hnil] at hend
    obtain ⟨hwr, hww', hen⟩ := hend
    simp only [hwr, Bool.false_eq_true, if_false, append_nil]
    refine ⟨hcontents.trans h.contents, hoffset, fun hq => absurd hnil hq, fun _ => ⟨hww', hidle, hwr⟩, nofun, ?_, htotal, ?_, hold, ?_⟩
    · rw [hen, hended, hd]
      cases w.stream.waitingForDispose <;> simp [hnil]
    · simpa [hwr] using hlen
    · simp [hwr]
  · rw [if_neg hnil] at hend
    obtain ⟨hwr, hww', hen⟩ := hend
    obtain ⟨b', queue', hbq⟩ := exists_cons_of_ne_nil hnil
    simp only [hwr, if_true, request_eq hbq]
    refine ⟨hcontents.trans h.contents, hoffset, fun _ => ⟨hww'.trans hww, by simp [hidle, hwr]⟩, fun hq => absurd hq hnil, nofun, ?_, htotal,
      ?_, ?_, fun _ => ?_⟩
    · simp [hen, hended, hnil]
    · simpa [hwr] using hlen
    · rw [← htotal]
      exact offsets_request hold hlen b'.rest
    · simp [hbq]

theorem step_ok {e : WriterEv} (h : Ok w) (hs : writerStep w e = some w') : Ok w' := by
  cases e with
  | next page => exact h.next hs
  | backUp count => exact h.backUp hs
  | dispose => exact h.dispose hs
  | idle => exact h.idle hs
  | wrote n => exact h.wrote hs

/-! ## After the release -/

theorem Ok.less {e : WriterEv} (h : Ok w) (hd : w.stream.waitingForDispose = true) (ht : Taking w e) (hs : writerStep w e = some w') :
    w'.stream.waitingForDispose = true ∧ w'.stream.measure < w.stream.measure := by
  cases e with
  | next page =>
    obtain ⟨stream, hstream, rfl⟩ := map_eq_some_iff.mp hs
    rw [(next_eq hstream).1] at hd
    cases hd
  | backUp count =>
    obtain ⟨⟨hf, -⟩, -⟩ := ite_none_right_eq_some.mp hs
    rw [(h.last hf).1] at hd
    cases hd
  | dispose => exact absurd hd (ite_none_left_eq_some.mp hs).1
  | idle =>
    obtain ⟨stream, hstream, rfl⟩ := map_eq_some_iff.mp hs
    refine ⟨?_, write_measure (e := .idle) trivial hstream⟩
    obtain ⟨-, rfl⟩ := idleCb_cases hstream
    exact hd
  | wrote n =>
    obtain ⟨stream, hstream, rfl⟩ := map_eq_some_iff.mp hs
    refine ⟨?_, write_measure (e := .wrote n) ht hstream⟩
    obtain ⟨b, queue, -, -, -, -, -, -, -, hd', -⟩ := writeCb_cases hstream
    exact hd'.trans hd

theorem Ok.goes_on (h : Ok w) (hd : w.stream.waitingForDispose = true) :
    w.stream.ended = 1 ∨ ∃ e w', Taking w e ∧ writerStep w e = some w' := by
  by_cases hq : w.stream.queue = []
  · exact Or.inl (by simp [h.ended, hd, hq])
  · right
    obtain ⟨hww, hactive⟩ := h.queued hq
    have hpending : w.stream.Pending w.given.flatten := ⟨h.contents, h.offset, hq, ⟨hww, hd⟩, hactive, by simp [h.ended, hq]⟩
    obtain ⟨e, stream, ht, hs⟩ := write_progress hpending
    cases e with
    | idle => exact ⟨.idle, _, trivial, map_eq_some_iff.mpr ⟨stream, hs, rfl⟩⟩
    | wrote n => exact ⟨.wrote n, _, ht, map_eq_some_iff.mpr ⟨stream, hs, rfl⟩⟩
    | failed => exact ht.elim

structure Correct (w : Writer) : Prop where
  oneAtATime : w.requests.length = w.results.length + w.stream.writing.toNat
  offsets : ∀ k r, w.requests[k]? = some r → r.1 = (w.results.take k).sum
  once : w.stream.ended ≤ 1
  whole : w.stream.ended = 1 → w.stream.waitingForDispose = true ∧ w.stream.writing = false ∧ w.stream.file = w.given.flatten
  /-- no `CHECK` fails -/
  checks : (w.stream.waitingForDispose = false → ∀ page, (writerStep w (.next page)).isSome = true) ∧
    (w.fresh = true → ∀ count ≤ maxPipePage, (writerStep w (.backUp count)).isSome = true)

theorem Ok.correct (h : Ok w) : Correct w where
  oneAtATime := h.oneAtATime
  offsets := h.offsets
  once := by
    rw [h.ended]
    split <;> omega
  whole he := by
    rw [h.ended] at he
    split at he
    · next hdone =>
      have hc := h.contents
      simp only [rest, hdone.2, map_nil, flatten_nil, append_nil] at hc
      exact ⟨hdone.1, (h.quiet hdone.2).2.2, hc⟩
    · cases he
  checks := by
    refine ⟨fun hd page => by simp [writerStep, OutputFileStream.next, hd], fun hf count hle => ?_⟩
    obtain ⟨queue, page, given, -, -, -, he⟩ := h.backUp_eq hf count
    simp [writerStep, hf, hle, he]

/-- Whatever buffers are taken and given back, and however little each write takes. -/
theorem page_written (es : List WriterEv) (w : Writer) (hr : run writerStep {} es = some w) (ha : Along writerStep Taking {} es) :
    Correct w ∧ (w.stream.waitingForDispose = true → Completes writerStep Taking w fun w => w.stream.ended = 1) := by
  have hok : Ok w := run_inv (fun _ _ _ h _ hs => step_ok h hs) start_ok ha hr
  refine ⟨hok.correct, fun hd => ?_⟩
  exact completes_of_measure (I := fun w => Ok w ∧ w.stream.waitingForDispose = true) (m := fun w => w.stream.measure)
    (fun _ _ _ h ht hs => ⟨step_ok h.1 hs, (h.1.less h.2 ht hs).1⟩) (fun _ _ _ h ht hs => (h.1.less h.2 ht hs).2)
    (fun _ h => h.1.goes_on h.2) ⟨hok, hd⟩

/-- Two buffers are taken, and three bytes of the first and one of the second are kept. The loop runs in between. -/
def sampleWrites (page : Page) : List WriterEv :=
  [.next page, .backUp 65533, .idle, .wrote 1, .next page, .backUp 65535, .wrote 2, .dispose, .wrote 1]

def zeroPage : Page := ⟨List.replicate maxPipePage 0, length_replicate⟩

theorem page_written_sample : ∃ w, run writerStep {} (sampleWrites zeroPage) = some w ∧ w.stream.waitingForDispose = true ∧
    w.results = [1, 2, 1] ∧ Correct w ∧ Completes writerStep Taking w fun w => w.stream.ended = 1 := by
  have htaking (w : Writer) (e : WriterEv) (he : e ≠ .wrote 0) : Taking w e := by
    cases e with
    | wrote n => exact fun h0 => absurd (congrArg WriterEv.wrote h0) he
    | _ => trivial
  have h (w : Writer) (hr : run writerStep {} (sampleWrites zeroPage) = some w) := page_written (sampleWrites zeroPage) w hr
    (along_mono htaking ((along_iff_forall hr).mpr (by simp [sampleWrites])))
  exact ⟨_, rfl, rfl, rfl, (h _ rfl).1, (h _ rfl).2 rfl⟩

end Writer

end Aworker.Cache
