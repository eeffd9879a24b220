/-
  Aworker.Ipc.Link — one direction of a connection, step by step.

  What one end writes reaches the other in chunks. `OnReadable`'s loop is taken apart
  here: between two passes the delegate may have done anything, such as write more. libuv
  does not call the socket while it is inside the loop.

  `Follows r msgs k`: the reader `r` has dispatched the first `k` of the messages written,
  and its buffer and the bytes in flight are the rest. Proved: writing, delivering and
  starting to read keep it; a pass of the loop dispatches message `k` or stops
  (`iterate_follows`); a reader with nothing left to do has dispatched all (`quiet_all`),
  and one that has something to do can do it (`reader_progress`).
-/

import Aworker.Ipc.Socket

namespace Aworker.Ipc

open List

open Aworker.Lib (Framing)

variable (P : Protobuf)

structure Reader where
  socket : SocketHolder P := {}
  /-- inside `OnReadable`'s loop -/
  reading : Bool := false
  /-- bytes the socket was given -/
  delivered : Nat := 0

def wire (msgs : List (Sent P)) : List UInt8 := msgs.flatMap (write P)

def inFlight (r : Reader P) (msgs : List (Sent P)) : List UInt8 := (wire P msgs).drop r.delivered

/-- `OnFrame` with the next `n` bytes. -/
def receive (r : Reader P) (msgs : List (Sent P)) (n : Nat) : Option (Reader P) :=
  if r.reading = false ∧ n ≤ (inFlight P r msgs).length then
    some { r with socket := onFrame P r.socket ((inFlight P r msgs).take n), delivered := r.delivered + n }
  else none

/-- The immediate runs: `OnReadable` begins. -/
def beginRead (r : Reader P) : Option (Reader P) :=
  if r.reading = false ∧ r.socket.readImmediate = true then
    some { r with socket := { r.socket with readImmediate := false }, reading := true }
  else none

def iterate (r : Reader P) : Option (Reader P × List (Out P)) :=
  if r.reading = true then
    some ({ r with
      socket := { r.socket with decoder := (readOnce P r.socket.decoder).1 }
      reading := (readOnce P r.socket.decoder).2.2 }, (readOnce P r.socket.decoder).2.1)
  else none

structure Reader.Quiet (r : Reader P) (msgs : List (Sent P)) : Prop where
  flight : inFlight P r msgs = []
  idle : r.reading = false
  notDue : r.socket.readImmediate = false

structure Follows (r : Reader P) (msgs : List (Sent P)) (k : Nat) : Prop where
  ok : r.socket.decoder.Ok
  delivered : r.delivered ≤ (wire P msgs).length
  dispatched : k ≤ msgs.length
  bytes : r.socket.decoder.buffer ++ inFlight P r msgs = wire P (msgs.drop k)
  idle : r.reading = false → r.socket.readImmediate = false → scan P r.socket.decoder.buffer = .more

theorem init_follows : Follows P {} [] 0 := ⟨init_ok P, Nat.le_refl _, Nat.le_refl _, rfl, fun _ _ => scan_nil P⟩

theorem wire_append (msgs ns : List (Sent P)) : wire P (msgs ++ ns) = wire P msgs ++ wire P ns := flatMap_append

variable {r : Reader P} {msgs : List (Sent P)} {k : Nat}

theorem write_follows (h : Follows P r msgs k) (ns : List (Sent P)) : Follows P r (msgs ++ ns) k := by
  refine ⟨h.ok, ?_, ?_, ?_, h.idle⟩
  · rw [wire_append, length_append]; exact Nat.le_add_right_of_le h.delivered
  · rw [length_append]; exact Nat.le_add_right_of_le h.dispatched
  · have hk : (msgs ++ ns).drop k = msgs.drop k ++ ns := drop_append_of_le_length h.dispatched
    rw [hk, wire_append, ← h.bytes, inFlight, inFlight, wire_append, drop_append_of_le_length h.delivered,
      append_assoc]

variable {r' : Reader P} {n : Nat}

theorem receive_follows (h : Follows P r msgs k) (hr : receive P r msgs n = some r') : Follows P r' msgs k := by
  unfold receive at hr
  split at hr
  · rename_i hg
    obtain rfl := Option.some.inj hr
    have hlen : n ≤ (wire P msgs).length - r.delivered := by simpa [inFlight] using hg.2
    refine ⟨?_, ?_, h.dispatched, ?_, ?_⟩
    · show (onFrame P r.socket _).decoder.Ok
      rw [onFrame, setReadable_decoder]
      exact insertBuffer_ok P h.ok _
    · show r.delivered + n ≤ _
      have := h.delivered
      omega
    · show (onFrame P r.socket _).decoder.buffer ++ (wire P msgs).drop (r.delivered + n) = _
      rw [onFrame, setReadable_decoder, insertBuffer_buffer, append_assoc, ← h.bytes, ← drop_drop, inFlight,
        take_append_drop]
    · intro _ hi
      have : (onFrame P r.socket ((inFlight P r msgs).take n)).readImmediate = true := setReadable_readImmediate P _
      rw [this] at hi; cases hi
  · cases hr

theorem beginRead_follows (h : Follows P r msgs k) (hr : beginRead P r = some r') : Follows P r' msgs k := by
  unfold beginRead at hr
  split at hr
  · obtain rfl := Option.some.inj hr
    exact ⟨h.ok, h.delivered, h.dispatched, h.bytes, fun e => by cases e⟩
  · cases hr

variable {out : List (Out P)}

/-- A pass of the loop: the next message is dispatched, or the loop ends with the
    beginning of a message in the buffer. -/
theorem iterate_follows (hs : ∀ m ∈ msgs, m.Sendable) (h : Follows P r msgs k) (hr : iterate P r = some (r', out)) :
    (out = [] ∧ r'.reading = false ∧ Follows P r' msgs k) ∨
    ∃ m, msgs[k]? = some m ∧ out = [.dispatch (m.frame P)] ∧ Follows P r' msgs (k + 1) := by
  unfold iterate at hr
  split at hr
  · obtain ⟨rfl, rfl⟩ := Prod.mk.inj (Option.some.inj hr)
    obtain ⟨d', hok, hdec⟩ := decode_spec P h.ok
    have henc : ∀ m ∈ msgs.drop k, (framing P).Encodes (write P) (Sent.frame P) m :=
      fun m hm => write_encodes P (hs m (mem_of_mem_drop hm))
    unfold Decodes at hdec
    rcases Framing.head_encode (scan_nil P) henc h.bytes with ⟨hm, -⟩ | ⟨m, ds, zs, hk, hb, hf, hz⟩
    · have hm : scan P r.socket.decoder.buffer = .more := hm
      rw [hm] at hdec
      have hread : readOnce P r.socket.decoder = (d', [], false) := by simp [readOnce, hdec.1]
      rw [hread]
      refine Or.inl ⟨rfl, rfl, hok, h.delivered, h.dispatched, ?_, ?_⟩
      · show d'.buffer ++ inFlight P r msgs = _
        rw [hdec.2]; exact h.bytes
      · intro _ _
        show scan P d'.buffer = .more
        rw [hdec.2]; exact hm
    · have hf : scan P r.socket.decoder.buffer = .frame (m.frame P) zs := hf
      rw [hf] at hdec
      obtain ⟨⟨d₁, hd₁, hdis⟩, hbuf⟩ := hdec
      have hread : readOnce P r.socket.decoder = (d', [.dispatch (m.frame P)], true) := by simp [readOnce, hd₁, hdis]
      have hget : msgs[k]? = some m := by rw [← head?_drop, hk]; rfl
      have hlt : k < msgs.length := (List.getElem?_eq_some_iff.mp hget).1
      rw [hread]
      refine Or.inr ⟨m, hget, rfl, hok, h.delivered, hlt, ?_, fun e => by cases e⟩
      show d'.buffer ++ inFlight P r msgs = wire P (msgs.drop (k + 1))
      rw [hbuf, hz, ← drop_drop, hk]; rfl
  · cases hr

theorem quiet_all (hs : ∀ m ∈ msgs, m.Sendable) (h : Follows P r msgs k) (hq : r.Quiet P msgs) : k = msgs.length := by
  have hbytes := h.bytes
  rw [hq.flight, append_nil] at hbytes
  cases hk : msgs.drop k with
  | nil =>
    have := drop_eq_nil_iff.mp hk
    have := h.dispatched
    omega
  | cons m ds =>
    have hsend : m.Sendable := hs m (mem_of_mem_drop (by rw [hk]; simp))
    have hf : scan P (write P m ++ wire P ds) = .frame (m.frame P) (wire P ds) := (write_encodes P hsend).whole _
    have hmore := h.idle hq.idle hq.notDue
    rw [hbytes, hk, wire, flatMap_cons] at hmore
    rw [show scan P (write P m ++ ds.flatMap (write P)) = _ from hf] at hmore
    cases hmore

/-! ## How much is left to do -/

/-- A due immediate is a loop to come, a loop a last pass to come. -/
def Reader.due (r : Reader P) : Nat := 2 * r.socket.readImmediate.toNat + r.reading.toNat

theorem receive_inFlight (hr : receive P r msgs n = some r') :
    (inFlight P r' msgs).length + n = (inFlight P r msgs).length := by
  unfold receive at hr
  split at hr
  · rename_i hg
    obtain rfl := Option.some.inj hr
    have hlen : n ≤ (wire P msgs).length - r.delivered := by simpa [inFlight] using hg.2
    simp only [inFlight, length_drop]
    omega
  · cases hr

theorem beginRead_due (hr : beginRead P r = some r') : r'.due < r.due ∧ r'.delivered = r.delivered := by
  unfold beginRead at hr
  split at hr
  · rename_i hg
    obtain rfl := Option.some.inj hr
    simp [Reader.due, hg.1, hg.2]
  · cases hr

theorem iterate_due (hr : iterate P r = some (r', out)) :
    r'.due ≤ r.due ∧ (r'.reading = false → r'.due < r.due) ∧ r'.delivered = r.delivered := by
  unfold iterate at hr
  split at hr
  · rename_i hg
    obtain ⟨rfl, -⟩ := Prod.mk.inj (Option.some.inj hr)
    have hle := Bool.toNat_le (readOnce P r.socket.decoder).2.2
    refine ⟨?_, ?_, rfl⟩
    · simp only [Reader.due, hg, Bool.toNat_true]; omega
    · intro hstop
      have hstop : (readOnce P r.socket.decoder).2.2 = false := hstop
      simp only [Reader.due, hg, hstop, Bool.toNat_true, Bool.toNat_false]; omega
  · cases hr

/-- Unless it is quiet, a reader can take bytes in, begin to read, or go on reading. -/
theorem reader_progress (hq : ¬ r.Quiet P msgs) :
    (receive P r msgs 1).isSome ∨ (beginRead P r).isSome ∨ (iterate P r).isSome := by
  by_cases hr : r.reading = true
  · right; right
    simp [iterate, hr]
  have hr : r.reading = false := by simpa using hr
  by_cases hd : r.socket.readImmediate = true
  · right; left
    simp [beginRead, hr, hd]
  · left
    have hne : inFlight P r msgs ≠ [] := fun he => hq ⟨he, hr, by simpa using hd⟩
    have hpos : 1 ≤ (inFlight P r msgs).length := length_pos_iff.mpr hne
    simp [receive, hr, hpos]

end Aworker.Ipc
