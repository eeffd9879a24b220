/-
  Aworker.Ipc.Dispose — a socket that is dropped (src/ipc/ipc_socket.cc:
  `SocketHolder::OnReadable`, `OnEoF`, `Dispatch`; src/ipc/ipc_socket_uv.cc:
  `UvSocketHolder::DisconnectAndDispose`, `OnClosed`).

  The owner of a socket may drop it at any time it runs, and it also runs in the delegate's
  callbacks: NoslatedDataChannel drops its socket in the callback of a rejected credentials
  request. That clears the immediate that would read and closes the pipe, so that libuv
  delivers no more data; the object is deleted by libuv's callback, later. What it does not
  end is the loop of `OnReadable` that the callback was called from.

  Main result: `silent_iff`.
-/

import Mathlib
import Aworker.Lib.Run
import Aworker.Ipc.Socket

namespace Aworker.Ipc

open Aworker.Lib List

variable (P : Protobuf)

/-! ## A socket with its callbacks -/

inductive Place where
  | outside
  /-- in the loop of `OnReadable` -/
  | reading
  /-- in a callback made by that loop's `Dispatch` -/
  | dispatching
  /-- in a callback made by `OnEoF`'s `Dispatch` -/
  | finishing
  /-- in the callback a function ends with -/
  | leaving
  | deleted

structure Holder where
  socket : SocketHolder P := {}
  place : Place := .outside
  /-- `DisconnectAndDispose` was called -/
  disposed : Bool := false
  out : List (Out P) := []

inductive HolderEv where
  | chunk (bs : List UInt8)
  | immediate
  /-- the next pass of `OnReadable`'s loop -/
  | pass
  | eof
  | dispose
  /-- the delegate's callback returns -/
  | returned
  | closed

/-- `Decode`, and `Dispatch` after an Ok: `ok`, `error` and `more` are where it goes on. -/
def decodeTo (h : Holder P) (ok error more : Place) (last : List (Out P)) : Holder P :=
  match decode P h.socket.decoder with
  | (.error, d) => { h with socket := { h.socket with decoder := d }, place := error, out := h.out ++ [.onError] }
  | (.ok, d) => { h with socket := { h.socket with decoder := (dispatch P d).2 }, place := ok, out := h.out ++ (dispatch P d).1 }
  | (.more, d) => { h with socket := { h.socket with decoder := d }, place := more, out := h.out ++ last }

def holderStep (h : Holder P) : HolderEv → Option (Holder P)
  | .chunk bs =>
    match h.place, h.disposed with
    | .outside, false => some { h with socket := onFrame P h.socket bs }
    | _, _ => none
  | .immediate =>
    match h.place, h.socket.readImmediate with
    | .outside, true => some { h with socket := { h.socket with readImmediate := false }, place := .reading }
    | _, _ => none
  | .pass =>
    match h.place with
    | .reading => some (decodeTo P h .dispatching .leaving .outside [])
    | _ => none
  | .eof =>
    match h.place, h.disposed with
    | .outside, false => some (decodeTo P h .finishing .leaving .leaving [.onFinished])
    | _, _ => none
  | .dispose =>
    match h.place, h.disposed with
    | .reading, _ => none
    | .deleted, _ => none
    | _, true => none
    | _, false => some { h with socket := { h.socket with readImmediate := false }, disposed := true }
  | .returned =>
    match h.place with
    | .dispatching => some { h with place := .reading }
    | .finishing => some { h with place := .leaving, out := h.out ++ [.onFinished] }
    | .leaving => some { h with place := .outside }
    | _ => none
  | .closed =>
    match h.place, h.disposed with
    | .outside, true => some { h with place := .deleted }
    | _, _ => none

def Holder.messages (h : Holder P) : List (Frame P) := h.out.filterMap (Out.frame? P)

/-! ## After the drop -/

/-- The next `Decode` of the loop, if it makes one, is not Ok. -/
def Drained (h : Holder P) : Prop :=
  h.place = .dispatching ∨ h.place = .reading → ∀ f rest, scan P h.socket.decoder.buffer ≠ .frame f rest

variable {P} {h h' : Holder P}

theorem decodeTo_spec (hok : h.socket.decoder.Ok) (ok error more : Place) (last : List (Out P)) :
    (decodeTo P h ok error more last).socket.decoder.Ok ∧ (decodeTo P h ok error more last).disposed = h.disposed ∧
      (decodeTo P h ok error more last).socket.readImmediate = h.socket.readImmediate ∧
      match scan P h.socket.decoder.buffer with
      | .frame f _ => (decodeTo P h ok error more last).place = ok ∧ (decodeTo P h ok error more last).out = h.out ++ [.dispatch f]
      | .bad => (decodeTo P h ok error more last).place = error ∧ (decodeTo P h ok error more last).out = h.out ++ [.onError]
      | .more => (decodeTo P h ok error more last).place = more ∧ (decodeTo P h ok error more last).out = h.out ++ last := by
  obtain ⟨d', hd', hdec⟩ := decode_spec P hok
  unfold Decodes at hdec
  unfold decodeTo
  cases hs : scan P h.socket.decoder.buffer with
  | more =>
    rw [hs] at hdec
    simpa [hdec.1] using hd'
  | bad =>
    rw [hs] at hdec
    simpa [hdec.1] using hd'
  | frame f rest =>
    rw [hs] at hdec
    obtain ⟨⟨d₁, h1, h2⟩, -⟩ := hdec
    simpa [h1, h2] using hd'

variable {e : HolderEv}

theorem decoder_step (hok : h.socket.decoder.Ok) (hs : holderStep P h e = some h') : h'.socket.decoder.Ok := by
  cases e with
  | chunk bs =>
    simp only [holderStep] at hs
    split at hs
    · cases hs
      rw [onFrame, setReadable_decoder]
      exact insertBuffer_ok P hok bs
    · cases hs
  | pass =>
    simp only [holderStep] at hs
    split at hs
    · cases hs
      exact (decodeTo_spec hok ..).1
    · cases hs
  | eof =>
    simp only [holderStep] at hs
    split at hs
    · cases hs
      exact (decodeTo_spec hok ..).1
    · cases hs
  | _ =>
    simp only [holderStep] at hs
    split at hs <;> cases hs <;> exact hok

/-- A dropped socket that has handed over `got` and hands over nothing more. -/
structure Silent (got : List (Frame P)) (h : Holder P) : Prop where
  ok : h.socket.decoder.Ok
  disposed : h.disposed = true
  unscheduled : h.socket.readImmediate = false
  drained : Drained P h
  messages : h.messages = got

variable {got : List (Frame P)}

theorem silent_pass (hsil : Silent got h) (hp : h.place = .reading) :
    Silent got (decodeTo P h .dispatching .leaving .outside []) := by
  have hnone := hsil.drained (Or.inr hp)
  obtain ⟨hok, hd, hr, hcase⟩ := decodeTo_spec hsil.ok .dispatching .leaving .outside []
  cases hscan : scan P h.socket.decoder.buffer with
  | frame f rest => exact absurd hscan (hnone f rest)
  | bad =>
    simp only [hscan] at hcase
    refine ⟨hok, hd.trans hsil.disposed, hr.trans hsil.unscheduled, fun hin => ?_, ?_⟩
    · rw [hcase.1] at hin
      simp at hin
    · rw [Holder.messages, hcase.2, filterMap_append]
      exact (append_nil _).trans hsil.messages
  | more =>
    simp only [hscan] at hcase
    refine ⟨hok, hd.trans hsil.disposed, hr.trans hsil.unscheduled, fun hin => ?_, ?_⟩
    · rw [hcase.1] at hin
      simp at hin
    · simpa [Holder.messages, hcase.2] using hsil.messages

theorem silent_step (hsil : Silent got h) (hs : holderStep P h e = some h') : Silent got h' := by
  cases e with
  | chunk bs => simp [holderStep, hsil.disposed] at hs
  | immediate => simp [holderStep, hsil.unscheduled] at hs
  | eof => simp [holderStep, hsil.disposed] at hs
  | dispose =>
    simp only [holderStep, hsil.disposed] at hs
    split at hs <;> simp_all
  | pass =>
    simp only [holderStep] at hs
    split at hs
    · next hp =>
      cases hs
      exact silent_pass hsil hp
    · cases hs
  | returned =>
    simp only [holderStep] at hs
    split at hs
    · next hp =>
      cases hs
      exact ⟨hsil.ok, hsil.disposed, hsil.unscheduled, fun _ => hsil.drained (Or.inl hp), hsil.messages⟩
    · cases hs
      refine ⟨hsil.ok, hsil.disposed, hsil.unscheduled, by simp [Drained], ?_⟩
      rw [Holder.messages, filterMap_append]
      exact (append_nil _).trans hsil.messages
    · cases hs
      exact ⟨hsil.ok, hsil.disposed, hsil.unscheduled, by simp [Drained], hsil.messages⟩
    · cases hs
  | closed =>
    simp only [holderStep] at hs
    split at hs
    · cases hs
      exact ⟨hsil.ok, hsil.disposed, hsil.unscheduled, by simp [Drained], hsil.messages⟩
    · cases hs

theorem dispose_step (hs : holderStep P h .dispose = some h') :
    h.place ≠ .reading ∧ h' = { h with socket := { h.socket with readImmediate := false }, disposed := true } := by
  refine ⟨fun hp => by simp [holderStep, hp] at hs, ?_⟩
  simp only [holderStep] at hs
  split at hs <;> cases hs
  rfl

/-- A complete message is left in the loop's buffer: it is dispatched when the callback returns. -/
theorem dispatched_next (hok : h.socket.decoder.Ok) (hp : h.place = .dispatching) {f : Frame P} {rest : List UInt8}
    (hscan : scan P h.socket.decoder.buffer = .frame f rest) :
    ∃ t, run (holderStep P) h [.returned, .pass] = some t ∧ t.messages = h.messages ++ [f] := by
  have hcase := (decodeTo_spec (h := { h with place := .reading }) hok .dispatching .leaving .outside []).2.2.2
  simp only [hscan] at hcase
  refine ⟨decodeTo P { h with place := .reading } .dispatching .leaving .outside [], ?_, ?_⟩
  · simp [run, holderStep, hp]
  · simp [Holder.messages, hcase.2, Out.frame?]

/-- A drop at any time, and any run after it. -/
theorem silent_iff {es : List HolderEv} (hr : run (holderStep P) {} es = some h) (hd : holderStep P h .dispose = some h') :
    (∀ fs t, run (holderStep P) h' fs = some t → t.messages = h.messages) ↔
      (h.place = .dispatching → ∀ f rest, scan P h.socket.decoder.buffer ≠ .frame f rest) := by
  have hok : h.socket.decoder.Ok :=
    run_inv (I := fun h : Holder P => h.socket.decoder.Ok) (Q := fun _ _ => True) (fun _ _ _ hok _ hs => decoder_step hok hs)
      (init_ok P) (along_true _ _) hr
  obtain ⟨hne, rfl⟩ := dispose_step hd
  constructor
  · intro hall hp f rest hscan
    obtain ⟨t, ht, hm⟩ := dispatched_next (h := { h with socket := { h.socket with readImmediate := false }, disposed := true }) hok hp hscan
    have := (hall _ t ht).symm.trans hm
    exact cons_ne_nil f [] (self_eq_append_right.mp this)
  · intro hdrained fs t ht
    have hsil : Silent h.messages { h with socket := { h.socket with readImmediate := false }, disposed := true } :=
      ⟨hok, rfl, rfl, fun hin => hdrained (hin.resolve_right hne), rfl⟩
    exact (run_inv (Q := fun _ _ => True) (fun _ _ _ hsil _ hs => silent_step hsil hs) hsil (along_true _ _) ht).messages

/-- The second message is not all there when the socket is dropped in the callback of the first. -/
theorem silent_iff_partial : ∃ h h', run (holderStep .plain) {} [.chunk (twoBytes.take 30), .immediate, .pass] = some h ∧
    h.messages.length = 1 ∧ holderStep .plain h .dispose = some h' ∧
    ∀ fs t, run (holderStep .plain) h' fs = some t → t.messages = h.messages := by
  obtain ⟨h, h', hr, hone, hbuf, hd⟩ : ∃ h h', run (holderStep .plain) {} [.chunk (twoBytes.take 30), .immediate, .pass] = some h ∧
      h.messages.length = 1 ∧ h.socket.decoder.buffer.length = 5 ∧ holderStep .plain h .dispose = some h' :=
    ⟨_, _, rfl, by decide, by decide, rfl⟩
  refine ⟨h, h', hr, hone, hd, (silent_iff hr hd).mpr fun _ f rest => ?_⟩
  rw [scan_short .plain (by rw [hbuf]; decide)]
  nofun

/-- Both messages are there: the second is dispatched although the first one's callback drops the socket. -/
theorem dispatched_after_dispose : ∃ h h' t, run (holderStep .plain) {} [.chunk twoBytes, .immediate, .pass] = some h ∧
    holderStep .plain h .dispose = some h' ∧ run (holderStep .plain) h' [.returned, .pass] = some t ∧
    h.messages = (twoMessages.take 1).map (Sent.frame .plain) ∧ t.messages = twoMessages.map (Sent.frame .plain) :=
  ⟨_, _, _, rfl, rfl, rfl, rfl, rfl⟩

end Aworker.Ipc
