/-
  Aworker.Fetch.Upload — the body of a request on its way to curl
  (lib/fetch/drivers/curl.js: `Curl.drainBody`, `Curl.read`).

  Two parties share `#bodyBuffers`. `drain` runs when the body's reader has a chunk, or is at its
  end; it starts the next read itself, after the unpause timer if it has set one. `read` is
  curl's callback; when there is nothing to read yet it tells curl to pause, and notes that in
  `#bodyPaused`. The timer clears the note and lets curl go on.

  libcurl is the environment (`step`): it asks for at least one byte, and not while it is
  paused. So are the stream, which has its chunks whenever it likes, and the timer, which fires
  at any time after it was set.

  (1) `upload_exact`: what was read is always a prefix of the body, and all of it once `read` has
      returned 0; while curl is paused a timer is pending, or a drain is to come, which sets one.
-/

import Mathlib
import Aworker.Lib.Run
import Aworker.Lib.Utf8
import Aworker.Fetch.Js

namespace Aworker.Fetch.Upload

open Aworker.Lib List Option

/-! ## Chunks -/

/-- A `Uint8Array`, or what another typed array covers. -/
structure View where
  buffer : Bytes
  byteOffset : Nat
  byteLength : Nat
  fits : byteOffset + byteLength ≤ buffer.length

def View.bytes (v : View) : Bytes := (v.buffer.drop v.byteOffset).take v.byteLength

def View.ofBuffer (buffer : Bytes) : View := ⟨buffer, 0, buffer.length, (Nat.zero_add _).le⟩

inductive BufferLike where
  | uint8Array (view : View)
  | typedArray (view : View)
  | arrayBuffer (buffer : Bytes)
  | string (text : Text)

def BufferLike.contents : BufferLike → Bytes
  | .uint8Array view | .typedArray view => view.bytes
  | .arrayBuffer buffer => buffer
  | .string text => Utf8.encode text

def bufferLikeToUint8Array : BufferLike → View
  | .uint8Array view => view
  | .typedArray view => ⟨view.buffer, view.byteOffset, view.byteLength, view.fits⟩
  | .arrayBuffer buffer => View.ofBuffer buffer
  | .string text => View.ofBuffer (Utf8.encode text)

/-! ## `read` -/

/-- The first `n` bytes, and the rest. -/
def View.cut (v : View) (n : Nat) (h : n ≤ v.byteLength) : View × View :=
  have hfits := v.fits
  (⟨v.buffer, v.byteOffset, n, by omega⟩, ⟨v.buffer, v.byteOffset + n, v.byteLength - n, by omega⟩)

/-- The loop: `target` is what was copied so far. -/
def readLoop (byteLength : Nat) : List View → Bytes → Bytes × List View
  | [], target => (target, [])
  | next :: bodyBuffers, target =>
    if target.length < byteLength then
      if h : target.length + next.byteLength > byteLength then
        let parts := next.cut (byteLength - target.length) (by omega)
        (target ++ parts.1.bytes, parts.2 :: bodyBuffers)
      else readLoop byteLength bodyBuffers (target ++ next.bytes)
    else (target, next :: bodyBuffers)

inductive ReadResult where
  /-- the bytes of the target and their number -/
  | bytes (b : Bytes)
  /-- `CURL_READFUNC_PAUSE` -/
  | pause
  deriving DecidableEq

/-! ## The machine -/

inductive Phase where
  /-- the reader was asked for the next chunk -/
  | reading
  /-- it is asked when the timer has fired -/
  | unpausing
  | ended
  deriving DecidableEq

structure State where
  /-- the chunks that the stream still has -/
  source : List BufferLike
  bodyBuffers : List View
  bodyDone : Bool
  bodyPaused : Bool
  phase : Phase
  /-- timers that have been set and have not fired -/
  timers : Nat
  curlPaused : Bool
  /-- what `read` has returned -/
  results : List ReadResult

def start (chunks : List BufferLike) : State := ⟨chunks, [], false, false, .reading, 0, false, []⟩

def drain (s : State) : State :=
  let timers := if s.bodyPaused then s.timers + 1 else s.timers
  match s.source with
  | [] => { s with bodyDone := true, phase := .ended, timers := timers }
  | value :: source =>
    { s with
      source := source
      bodyBuffers := s.bodyBuffers ++ [bufferLikeToUint8Array value]
      phase := if s.bodyPaused then .unpausing else .reading
      timers := timers }

def pause (s : State) : State := { s with bodyPaused := true, curlPaused := true, results := s.results ++ [.pause] }

def read (s : State) (byteLength : Nat) : State :=
  if byteLength = 0 then { s with results := s.results ++ [.bytes []] }
  else if s.bodyBuffers = [] then
    if s.bodyDone then { s with results := s.results ++ [.bytes []] } else pause s
  else
    let loop := readLoop byteLength s.bodyBuffers []
    let s := { s with bodyBuffers := loop.2 }
    if loop.1.length ≠ 0 then { s with results := s.results ++ [.bytes loop.1] }
    else if s.bodyDone then { s with results := s.results ++ [.bytes []] }
    else pause s

def unpause (s : State) : State :=
  { s with
    timers := s.timers - 1
    bodyPaused := false
    curlPaused := false
    phase := if s.phase = .unpausing then .reading else s.phase }

inductive Ev where
  | drain
  | read (byteLength : Nat)
  | timer
  deriving DecidableEq

def step (s : State) : Ev → Option State
  | .drain => if s.phase = .reading then some (drain s) else none
  | .read byteLength => if s.curlPaused ∨ byteLength = 0 then none else some (read s byteLength)
  | .timer => if s.timers = 0 then none else some (unpause s)

/-! ## Bytes -/

def ReadResult.contents : ReadResult → Bytes
  | .bytes b => b
  | .pause => []

def delivered (s : State) : Bytes := s.results.flatMap ReadResult.contents

def queued (bodyBuffers : List View) : Bytes := bodyBuffers.flatMap View.bytes

theorem bufferLikeToUint8Array_bytes (c : BufferLike) : (bufferLikeToUint8Array c).bytes = c.contents := by
  have hbuffer (buffer : Bytes) : (View.ofBuffer buffer).bytes = buffer := take_length
  cases c with
  | uint8Array view => rfl
  | typedArray view => rfl
  | arrayBuffer buffer => exact hbuffer buffer
  | string text => exact hbuffer (Utf8.encode text)

theorem View.bytes_length (v : View) : v.bytes.length = v.byteLength := by
  have hfits := v.fits
  rw [View.bytes, length_take, length_drop]
  omega

theorem View.cut_bytes (v : View) {n : Nat} (h : n ≤ v.byteLength) : (v.cut n h).1.bytes ++ (v.cut n h).2.bytes = v.bytes := by
  show (v.buffer.drop v.byteOffset).take n ++ (v.buffer.drop (v.byteOffset + n)).take (v.byteLength - n) = (v.buffer.drop v.byteOffset).take v.byteLength
  rw [← drop_drop, ← take_add, Nat.add_sub_of_le h]

/-- What the loop copies is taken from the front, and it stops early only when nothing is left. -/
theorem readLoop_spec (byteLength : Nat) (bodyBuffers : List View) (target : Bytes) :
    (readLoop byteLength bodyBuffers target).1 ++ queued (readLoop byteLength bodyBuffers target).2 = target ++ queued bodyBuffers ∧
      ((readLoop byteLength bodyBuffers target).1.length < byteLength → (readLoop byteLength bodyBuffers target).2 = []) := by
  induction bodyBuffers generalizing target with
  | nil => exact ⟨rfl, fun _ => rfl⟩
  | cons next bodyBuffers ih =>
    unfold readLoop
    split
    · split
      · rename_i hlt h
        have hcut := next.cut_bytes (show byteLength - target.length ≤ next.byteLength by omega)
        refine ⟨?_, fun hshort => ?_⟩
        · show target ++ (next.cut _ _).1.bytes ++ ((next.cut _ _).2.bytes ++ queued bodyBuffers) = _
          rw [append_assoc, ← append_assoc (next.cut _ _).1.bytes, hcut]
          rfl
        · have hpart : (next.cut (byteLength - target.length) (by omega)).1.bytes.length = byteLength - target.length := View.bytes_length _
          rw [length_append, hpart] at hshort
          omega
      · obtain ⟨hbytes, hrest⟩ := ih (target ++ next.bytes)
        refine ⟨?_, hrest⟩
        rw [hbytes, append_assoc]
        rfl
    · rename_i hfull
      exact ⟨rfl, fun hshort => absurd hshort hfull⟩

/-! ## The invariant -/

structure Inv (chunks : List BufferLike) (s : State) : Prop where
  bytes : delivered s ++ queued s.bodyBuffers ++ s.source.flatMap BufferLike.contents = chunks.flatMap BufferLike.contents
  paused : s.curlPaused = true → s.bodyPaused = true
  done : s.bodyDone = true ↔ s.phase = .ended
  empty : s.phase = .ended → s.source = []
  waits : s.phase = .unpausing → 0 < s.timers
  pending : s.bodyPaused = true → 0 < s.timers ∨ s.phase = .reading
  /-- after a 0 there is nothing more -/
  zero : .bytes [] ∈ s.results → s.bodyDone = true ∧ queued s.bodyBuffers = []

variable {chunks : List BufferLike} {s s' t : State}

theorem start_inv (chunks : List BufferLike) : Inv chunks (start chunks) :=
  ⟨rfl, by simp [start], by simp [start], by simp [start], by simp [start], by simp [start], by simp [start]⟩

theorem Inv.not_ended (h : Inv chunks s) (hp : s.phase = .reading) : s.bodyDone = false ∧ .bytes [] ∉ s.results := by
  have hdone : s.bodyDone = false := by
    cases hd : s.bodyDone with
    | false => rfl
    | true =>
      rw [h.done.mp hd] at hp
      cases hp
  refine ⟨hdone, fun hz => ?_⟩
  rw [(h.zero hz).1] at hdone
  cases hdone

theorem drain_inv (h : Inv chunks s) (hp : s.phase = .reading) : Inv chunks (drain s) := by
  obtain ⟨hdone, hzero⟩ := h.not_ended hp
  have hbytes := h.bytes
  have htimer (hpaused : s.bodyPaused = true) : 0 < if s.bodyPaused then s.timers + 1 else s.timers := by
    rw [if_pos hpaused]
    exact Nat.succ_pos _
  unfold drain
  cases hsource : s.source with
  | nil =>
    rw [hsource] at hbytes
    exact ⟨hbytes, h.paused, by simp, fun _ => rfl, by simp, fun hpaused => Or.inl (htimer hpaused), fun hz => absurd hz hzero⟩
  | cons value source =>
    refine ⟨?_, h.paused, ?_, ?_, ?_, fun hpaused => Or.inl (htimer hpaused), fun hz => absurd hz hzero⟩
    · rw [hsource, flatMap_cons, ← bufferLikeToUint8Array_bytes value] at hbytes
      rw [← hbytes]
      simp [delivered, queued]
    · show s.bodyDone = true ↔ (if s.bodyPaused then Phase.unpausing else Phase.reading) = .ended
      cases s.bodyPaused <;> simp [hdone]
    · show (if s.bodyPaused then Phase.unpausing else Phase.reading) = .ended → _
      cases s.bodyPaused <;> simp
    · show (if s.bodyPaused then Phase.unpausing else Phase.reading) = .unpausing → _
      intro hwait
      refine htimer ?_
      cases hpaused : s.bodyPaused with
      | true => rfl
      | false => simp [hpaused] at hwait

theorem unpause_inv (h : Inv chunks s) : Inv chunks (unpause s) := by
  refine ⟨h.bytes, by simp [unpause], ?_, ?_, ?_, by simp [unpause], h.zero⟩
  · show s.bodyDone = true ↔ (if s.phase = .unpausing then Phase.reading else s.phase) = .ended
    rw [h.done]
    cases s.phase <;> simp
  · show (if s.phase = .unpausing then Phase.reading else s.phase) = .ended → _
    intro hended
    refine h.empty ?_
    cases hp : s.phase <;> simp [hp] at hended ⊢
  · show (if s.phase = .unpausing then Phase.reading else s.phase) = .unpausing → _
    cases s.phase <;> simp

theorem pause_inv (h : Inv chunks s) (hdone : s.bodyDone = false) : Inv chunks (pause s) := by
  have hphase : s.phase ≠ .ended := fun he => by
    rw [h.done.mpr he] at hdone
    cases hdone
  refine ⟨?_, fun _ => rfl, h.done, h.empty, h.waits, fun _ => ?_, fun hz => ?_⟩
  · rw [← h.bytes]
    simp [delivered, pause, ReadResult.contents]
  · cases hp : s.phase with
    | reading => exact Or.inr hp
    | unpausing => exact Or.inl (h.waits hp)
    | ended => exact absurd hp hphase
  · refine h.zero ?_
    simpa [pause] using hz

theorem zero_inv (h : Inv chunks s) (hdone : s.bodyDone = true) (hempty : queued s.bodyBuffers = []) :
    Inv chunks { s with results := s.results ++ [.bytes []] } := by
  refine ⟨?_, h.paused, h.done, h.empty, h.waits, h.pending, fun _ => ⟨hdone, hempty⟩⟩
  rw [← h.bytes]
  simp [delivered, ReadResult.contents]

theorem some_inv (h : Inv chunks s) {out : Bytes} {bodyBuffers : List View} (hout : out.length ≠ 0)
    (hbytes : out ++ queued bodyBuffers = queued s.bodyBuffers) :
    Inv chunks { s with bodyBuffers := bodyBuffers, results := s.results ++ [.bytes out] } := by
  have hne : out ≠ [] := fun he => hout (by rw [he]; rfl)
  refine ⟨?_, h.paused, h.done, h.empty, h.waits, h.pending, fun hz => ?_⟩
  · rw [← h.bytes, ← hbytes]
    simp [delivered, ReadResult.contents]
  · have hold : .bytes [] ∈ s.results := by simpa [hne] using hz
    obtain ⟨hdone, hempty⟩ := h.zero hold
    rw [hempty] at hbytes
    exact absurd (append_eq_nil_iff.mp hbytes).1 hne

theorem read_inv (h : Inv chunks s) {byteLength : Nat} (hpos : byteLength ≠ 0) : Inv chunks (read s byteLength) := by
  obtain ⟨hbytes, hshort⟩ := readLoop_spec byteLength s.bodyBuffers []
  unfold read
  rw [if_neg hpos]
  split
  · rename_i hempty
    split
    · rename_i hdone
      exact zero_inv h hdone (by rw [hempty]; rfl)
    · rename_i hdone
      exact pause_inv h (Bool.not_eq_true _ ▸ hdone)
  · generalize readLoop byteLength s.bodyBuffers [] = loop at hbytes hshort ⊢
    dsimp only
    split
    · rename_i hout
      exact some_inv h hout hbytes
    · -- nothing but empty chunks
      rename_i hout
      have hnil : loop.1 = [] := eq_nil_of_length_eq_zero (not_not.mp hout)
      have hleft : loop.2 = [] := hshort (by rw [hnil]; exact Nat.pos_of_ne_zero hpos)
      have hqueued : queued s.bodyBuffers = [] := by
        rw [hnil, hleft] at hbytes
        exact hbytes.symm
      have hrest : Inv chunks { s with bodyBuffers := loop.2 } := by
        refine ⟨?_, h.paused, h.done, h.empty, h.waits, h.pending, fun hz => ⟨(h.zero hz).1, by rw [hleft]; rfl⟩⟩
        rw [← h.bytes, hqueued, hleft]
        rfl
      split
      · rename_i hdone
        exact zero_inv hrest hdone (by rw [hleft]; rfl)
      · rename_i hdone
        exact pause_inv hrest (Bool.not_eq_true _ ▸ hdone)

theorem step_inv {e : Ev} (h : Inv chunks s) (hs : step s e = some s') : Inv chunks s' := by
  cases e with
  | drain =>
    obtain ⟨hp, hs⟩ := ite_none_right_eq_some.mp hs
    cases hs
    exact drain_inv h hp
  | read byteLength =>
    obtain ⟨hgo, hs⟩ := ite_none_left_eq_some.mp hs
    cases hs
    exact read_inv h (not_or.mp hgo).2
  | timer =>
    obtain ⟨-, hs⟩ := ite_none_left_eq_some.mp hs
    cases hs
    exact unpause_inv h

/-! ## Uploads -/

theorem drain_timers (h : s.bodyPaused = true) : 0 < (drain s).timers := by
  unfold drain
  cases s.source <;> simp [h]

theorem upload_exact (chunks : List BufferLike) (es : List Ev) (t : State) (hr : run step (start chunks) es = some t) :
    delivered t <+: chunks.flatMap BufferLike.contents ∧
    (.bytes [] ∈ t.results → delivered t = chunks.flatMap BufferLike.contents) ∧
    (t.curlPaused = true → (0 < t.timers ∨ (step t .drain).isSome) ∧ ∀ t', step t .drain = some t' → 0 < t'.timers) := by
  have h : Inv chunks t := run_inv (fun _ _ _ hi _ hs => step_inv hi hs) (start_inv chunks) (along_true _ _) hr
  refine ⟨?_, fun hz => ?_, fun hpaused => ⟨?_, fun t' hs => ?_⟩⟩
  · rw [← h.bytes, append_assoc]
    exact prefix_append _ _
  · obtain ⟨hdone, hempty⟩ := h.zero hz
    rw [← h.bytes, hempty, h.empty (h.done.mp hdone)]
    simp
  · refine (h.pending (h.paused hpaused)).imp id fun hp => ?_
    rw [step, if_pos hp]
    rfl
  · obtain ⟨-, hs⟩ := ite_none_right_eq_some.mp hs
    cases hs
    exact drain_timers (h.paused hpaused)

/-- A pause before anything has come; an empty chunk wakes curl for nothing; a chunk is read in
    two parts; and the end comes while curl is paused. -/
def pausedUpload : List Ev := [.read 4, .drain, .timer, .read 4, .drain, .timer, .read 2, .read 2, .read 2, .drain, .timer, .read 2]

def fewChunks : List BufferLike := [.string [], .arrayBuffer [1, 2, 3]]

theorem pausedUpload_exact : ∃ t, run step (start fewChunks) pausedUpload = some t ∧ delivered t = [1, 2, 3] ∧
    t.results = [.pause, .pause, .bytes [1, 2], .bytes [3], .pause, .bytes []] := by
  refine ⟨_, rfl, (upload_exact fewChunks pausedUpload _ rfl).2.1 ?_, rfl⟩
  decide

end Aworker.Fetch.Upload
