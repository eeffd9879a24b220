/-
  Aworker.Streams.Readable — the default ReadableStream (lib/streams.js) without `pull`
  and `cancel` methods in its source: its state, its controller's queue, and its reader.

  `close`, `enqueue` and `error` are the controller's; the rest is the consumer's. A call
  that throws gives the message it throws. `settled` is what reads have been given, in
  the order of the reads.

  `Open` is neither errored nor asked to close. Whatever the consumer does keeps it
  (`consume_open`), and the controller can close it unless the consumer has cancelled it
  (`close_open`).
-/

import Mathlib

namespace Aworker.Streams

inductive ReadableState (ρ : Type) where
  | readable
  | closed
  | errored (storedError : ρ)

inductive ReadResult (χ ρ : Type) where
  | chunk (c : χ)
  | done
  | rejected (e : ρ)

structure Readable (χ ρ : Type) where
  state : ReadableState ρ := .readable
  closeRequested : Bool := false
  queue : List χ := []
  /-- `reader`, with the number of its `readRequests` -/
  reader : Option Nat := none
  settled : List (ReadResult χ ρ) := []

variable {χ ρ : Type}

variable {s : Readable χ ρ}

namespace Readable

/-! ## The stream and its controller -/

def settleAll (s : Readable χ ρ) (r : ReadResult χ ρ) : Readable χ ρ :=
  { s with reader := s.reader.map fun _ => 0, settled := s.settled ++ List.replicate (s.reader.getD 0) r }

/-- `readableStreamClose` -/
def closeStream (s : Readable χ ρ) : Readable χ ρ := settleAll { s with state := .closed } .done

/-- `readableStreamDefaultControllerCanCloseOrEnqueue` -/
def canCloseOrEnqueue (s : Readable χ ρ) : Bool :=
  !s.closeRequested && match s.state with
    | .readable => true
    | _ => false

def close (s : Readable χ ρ) : Except String (Readable χ ρ) :=
  if s.canCloseOrEnqueue then
    let s := { s with closeRequested := true }
    .ok (if s.queue = [] then s.closeStream else s)
  else .error "ReadableStreamDefaultController cannot close or enqueue."

def enqueue (s : Readable χ ρ) (c : χ) : Except String (Readable χ ρ) :=
  if s.canCloseOrEnqueue then
    match s.reader with
    | some (n + 1) => .ok { s with reader := some n, settled := s.settled ++ [.chunk c] }
    | _ => .ok { s with queue := s.queue ++ [c] }
  else .error "ReadableSteamController cannot enqueue."

def error (s : Readable χ ρ) (e : ρ) : Readable χ ρ :=
  match s.state with
  | .readable => settleAll { s with state := .errored e, queue := [] } (.rejected e)
  | _ => s

def isClosed (s : Readable χ ρ) : Bool :=
  match s.state with
  | .closed => true
  | _ => false

/-! ## The consumer -/

inductive Op where
  | getReader
  | read
  | releaseLock
  /-- `ReadableStream.cancel` and `ReadableStreamDefaultReader.cancel` -/
  | cancel
  | readerCancel

/-- `readableStreamCancel` -/
def cancelStream (s : Readable χ ρ) : Readable χ ρ :=
  match s.state with
  | .readable => { s.closeStream with queue := [] }
  | _ => s

/-- `readableStreamDefaultReaderRead` of a reader with `n` requests. -/
def readerRead (s : Readable χ ρ) (n : Nat) : Readable χ ρ :=
  match s.state with
  | .closed => { s with settled := s.settled ++ [.done] }
  | .errored e => { s with settled := s.settled ++ [.rejected e] }
  | .readable =>
    match s.queue with
    | [] => { s with reader := some (n + 1) }
    | c :: q =>
      let s := { s with queue := q, settled := s.settled ++ [.chunk c] }
      if s.closeRequested = true ∧ q = [] then s.closeStream else s

/-- What the consumer does; a call that throws or is rejected changes nothing. -/
def consume (s : Readable χ ρ) : Op → Readable χ ρ
  | .getReader => if s.reader = none then { s with reader := some 0 } else s
  | .read =>
    match s.reader with
    | none => s
    | some n => s.readerRead n
  | .releaseLock => if s.reader = some 0 then { s with reader := none } else s
  | .cancel => if s.reader = none then s.cancelStream else s
  | .readerCancel => if s.reader = none then s else s.cancelStream

/-! ## Open streams -/

/-- Not errored, and no close was requested: it is readable, or the consumer cancelled it. -/
structure Open (s : Readable χ ρ) : Prop where
  notErrored : ∀ e, s.state ≠ .errored e
  notRequested : s.closeRequested = false

theorem new_open : Open ({} : Readable χ ρ) := ⟨fun _ h => (nomatch h), rfl⟩

/-- The controller can close an open stream exactly if the consumer has not. -/
theorem close_open (h : Open s) :
    (s.isClosed = false ∧ ∃ s', s.close = .ok s') ∨ (s.isClosed = true ∧ ∃ m, s.close = .error m) := by
  cases hs : s.state with
  | readable =>
    left
    have hcan : s.canCloseOrEnqueue = true := by simp [canCloseOrEnqueue, h.notRequested, hs]
    exact ⟨by simp [isClosed, hs], _, by rw [close, if_pos hcan]⟩
  | closed =>
    right
    have hcan : ¬ s.canCloseOrEnqueue = true := by simp [canCloseOrEnqueue, hs]
    exact ⟨by simp [isClosed, hs], _, by rw [close, if_neg hcan]⟩
  | errored e => exact absurd hs (h.notErrored e)

theorem enqueue_open {s' : Readable χ ρ} {c : χ} (h : Open s) (he : s.enqueue c = .ok s') : Open s' := by
  unfold enqueue at he
  split at he
  · split at he
    · cases he; exact ⟨h.notErrored, h.notRequested⟩
    · cases he; exact ⟨h.notErrored, h.notRequested⟩
  · cases he

theorem cancelStream_open (h : Open s) : Open s.cancelStream := by
  unfold cancelStream
  split
  · exact ⟨fun _ he => (nomatch he), h.notRequested⟩
  · exact h

theorem readerRead_open (h : Open s) (n : Nat) : Open (s.readerRead n) := by
  unfold readerRead
  split
  · exact ⟨h.notErrored, h.notRequested⟩
  · exact ⟨h.notErrored, h.notRequested⟩
  · split
    · exact ⟨h.notErrored, h.notRequested⟩
    · rw [if_neg (by simp [h.notRequested])]
      exact ⟨h.notErrored, h.notRequested⟩

theorem consume_open (h : Open s) (op : Op) : Open (s.consume op) := by
  cases op with
  | getReader =>
    simp only [consume]
    split
    · exact ⟨h.notErrored, h.notRequested⟩
    · exact h
  | read =>
    simp only [consume]
    split
    · exact h
    · exact readerRead_open h _
  | releaseLock =>
    simp only [consume]
    split
    · exact ⟨h.notErrored, h.notRequested⟩
    · exact h
  | cancel =>
    simp only [consume]
    split
    · exact cancelStream_open h
    · exact h
  | readerCancel =>
    simp only [consume]
    split
    · exact h
    · exact cancelStream_open h

end Readable

end Aworker.Streams
