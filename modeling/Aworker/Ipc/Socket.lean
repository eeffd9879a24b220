/-
  Aworker.Ipc.Socket — one end of an agent connection (src/ipc/ipc_socket.cc:
  `NoslatedDecoder`, `SocketHolder`).

  A message is a 25 byte header and a body. The decoder accumulates what the socket
  reads, keeps a parsed header while its body is incomplete, and hands out one message
  per `Decode`. `OnFrame` appends and schedules an immediate; the immediate decodes and
  dispatches until the buffer holds no complete message (`OnReadable`); `OnEoF` decodes
  once more. Built without `DEBUG`, `DCHECK(false)` is nothing.

  `scan` is the grammar of one message on plain bytes, with no decoder state, and
  `framing` the framing it gives. Between two calls a decoder's cached header is what
  its buffer parses to (`Decoder.Ok`), so `Decode` is `scan`
  (`decode_spec`), `OnReadable` is the framing's `drain` (`onReadable_spec`), and a
  socket is the framing's receiver (`refines`).

  Proved, for every cut of the bytes into chunks and every placement of the reads:
  `framing_round_trip`, `eof_delivers_iff`, `eof_dispatches_prefix`, `error_final`.
-/

import Aworker.Lib.Framing
import Aworker.Ipc.Message

namespace Aworker.Ipc

open List

open Aworker.Lib (Head Framing)
open Aworker.Lib.Framing (RxEv seen late received complete)

variable (P : Protobuf)

/-! ## The decoder -/

inductive DecodingState where
  | error
  | ok
  | more
  deriving DecidableEq, Repr

structure Decoder where
  readSize : Nat := 0
  buffer : List UInt8 := []
  header : Option MessageHeader := none
  content : Option P.Msg := none

def insertBuffer (d : Decoder P) (bs : List UInt8) : Decoder P :=
  if 0 < bs.length then { d with buffer := d.buffer ++ bs } else d

/-- The body of one `case` of the decoders' switches. -/
def decodeAs (d : Decoder P) (h : MessageHeader) (t : MessageType) : DecodingState × Decoder P :=
  match P.parse t ((d.buffer.drop messageHeaderSize).take h.contentLength.toNat) with
  | none => (.error, d)
  | some m => (.ok, { d with readSize := d.readSize + h.contentLength.toNat, content := some m })

def decodeRequest (d : Decoder P) (h : MessageHeader) : DecodingState × Decoder P :=
  match RequestKind.ofWire? h.requestKind with
  | some k => decodeAs P d h (.request k)
  | none => (.error, d)

def decodeResponse (d : Decoder P) (h : MessageHeader) : DecodingState × Decoder P :=
  if CanonicalCode.ofWire h.code ≠ .ok then decodeAs P d h .errorResponse
  else match RequestKind.ofWire? h.requestKind with
    | some k => decodeAs P d h (.response k)
    | none => (.error, d)

/-- `Decode` once it has a header. -/
def decodeContent (d : Decoder P) (h : MessageHeader) : DecodingState × Decoder P :=
  if d.buffer.length < messageHeaderSize + h.contentLength.toNat then (.more, d)
  else match MessageKind.ofWire? h.messageKind with
    | some .request => decodeRequest P d h
    | some .response => decodeResponse P d h
    | none => (.error, d)

def decode (d : Decoder P) : DecodingState × Decoder P :=
  if d.buffer.length < messageHeaderSize then (.more, d)
  else match d.header with
    | some h => decodeContent P d h
    | none =>
      match P.parseHeader (d.buffer.take messageHeaderSize) with
      | none => (.error, d)
      | some h => decodeContent P { d with header := some h, readSize := messageHeaderSize } h

def takeContentOwnership (d : Decoder P) : Option P.Msg × Decoder P :=
  (d.content, { readSize := 0, buffer := d.buffer.drop d.readSize, header := none, content := none })

/-! ## The socket -/

/-- A decoded message: what `Dispatch` takes out of the decoder. -/
structure Frame where
  header : MessageHeader
  content : P.Msg

/-- The delegate's callbacks. The kind is `none` for a value no request type has: an
    error response is accepted with any. -/
inductive Call where
  | onRequest (id : RequestId) (kind : Option RequestKind) (body : P.Msg)
  | onResponse (id : RequestId) (kind : Option RequestKind) (code : CanonicalCode) (body : P.Msg)
  | onError
  | onFinished

inductive Out where
  | dispatch (f : Frame P)
  | onError
  | onFinished

/-- The call `Dispatch` makes; `OnRequest` has no parameter for the header's code. -/
def Frame.call (f : Frame P) : Call P :=
  match MessageKind.ofWire? f.header.messageKind with
  | some .response =>
    .onResponse f.header.requestId (RequestKind.ofWire? f.header.requestKind) (CanonicalCode.ofWire f.header.code) f.content
  | _ => .onRequest f.header.requestId (RequestKind.ofWire? f.header.requestKind) f.content

def Out.call : Out P → Call P
  | .dispatch f => f.call
  | .onError => .onError
  | .onFinished => .onFinished

def Out.frame? : Out P → Option (Frame P)
  | .dispatch f => some f
  | _ => none

/-- `Dispatch`, after a `Decode` that returned Ok: a header and a content are there. -/
def dispatch (d : Decoder P) : List (Out P) × Decoder P :=
  let d' := { d with header := none }
  match d.header with
  | none => ([], d')
  | some h =>
    match MessageKind.ofWire? h.messageKind, takeContentOwnership P d' with
    | some _, (some m, d'') => ([.dispatch ⟨h, m⟩], d'')
    | some _, (none, d'') => ([], d'')
    | none, _ => ([], d')

/-- One pass of `OnReadable`'s loop, and whether the loop goes on. -/
def readOnce (d : Decoder P) : Decoder P × List (Out P) × Bool :=
  match decode P d with
  | (.error, d) => (d, [.onError], false)
  | (.ok, d) => ((dispatch P d).2, (dispatch P d).1, true)
  | (.more, d) => (d, [], false)

def readLoop : Nat → Decoder P → Decoder P × List (Out P)
  | 0, d => (d, [])
  | n + 1, d =>
    match readOnce P d with
    | (d, out, true) => ((readLoop n d).1, out ++ (readLoop n d).2)
    | (d, out, false) => (d, out)

/-- Every pass that goes on consumes a header: the loop ends before the buffer's length. -/
def onReadable (d : Decoder P) : Decoder P × List (Out P) := readLoop P (d.buffer.length + 1) d

structure SocketHolder where
  decoder : Decoder P := {}
  /-- `read_immediate_ != nullptr` -/
  readImmediate : Bool := false

def setReadable (s : SocketHolder P) : SocketHolder P :=
  if s.readImmediate then s else { s with readImmediate := true }

def onFrame (s : SocketHolder P) (bs : List UInt8) : SocketHolder P :=
  setReadable P { s with decoder := insertBuffer P s.decoder bs }

/-- The immediate's callback; without a scheduled immediate there is none to run. -/
def onImmediate (s : SocketHolder P) : SocketHolder P × List (Out P) :=
  if s.readImmediate then (⟨(onReadable P s.decoder).1, false⟩, (onReadable P s.decoder).2) else (s, [])

def onEoF (s : SocketHolder P) : SocketHolder P × List (Out P) :=
  match decode P s.decoder with
  | (.error, d) => ({ s with decoder := d }, [.onError])
  | (.ok, d) => ({ s with decoder := (dispatch P d).2 }, (dispatch P d).1 ++ [.onFinished])
  | (.more, d) => ({ s with decoder := d }, [.onFinished])

structure Rx where
  socket : SocketHolder P := {}
  out : List (Out P) := []

def rxStep (r : Rx P) : RxEv UInt8 → Rx P
  | .chunk bs => { r with socket := onFrame P r.socket bs }
  | .read => ⟨(onImmediate P r.socket).1, r.out ++ (onImmediate P r.socket).2⟩

def rxRun (evs : List (RxEv UInt8)) : Rx P := evs.foldl (rxStep P) {}

/-- The run `evs`, then end of file. -/
def rxRunEoF (evs : List (RxEv UInt8)) : Rx P :=
  ⟨(onEoF P (rxRun P evs).socket).1, (rxRun P evs).out ++ (onEoF P (rxRun P evs).socket).2⟩

/-! ## Writing -/

/-- The arguments of one `SocketHolder::Write`. -/
structure Sent where
  mkind : MessageKind
  rid : RequestId
  rkind : RequestKind
  msg : P.Msg
  code : CanonicalCode

def Sent.header (m : Sent P) : MessageHeader where
  messageKind := m.mkind.toWire
  requestId := m.rid
  requestKind := m.rkind.toWire
  contentLength := UInt32.ofNat (P.serialize m.msg).length
  code := m.code.toWire

/-- The bytes `Write` puts on the wire. -/
def write (m : Sent P) : List UInt8 := P.serializeHeader (m.header P) ++ P.serialize m.msg

def Sent.frame (m : Sent P) : Frame P := ⟨m.header P, m.msg⟩

/-- The delegate call a written message asks for. -/
def Sent.call (m : Sent P) : Call P :=
  match m.mkind with
  | .request => .onRequest m.rid (some m.rkind) m.msg
  | .response => .onResponse m.rid (some m.rkind) m.code m.msg

/-- The class the other end parses a body as. -/
def bodyType (mkind : MessageKind) (rkind : RequestKind) (code : CanonicalCode) : MessageType :=
  match mkind with
  | .request => .request rkind
  | .response => if code ≠ .ok then .errorResponse else .response rkind

/-- A message the protocol knows, with a body of the class its header promises that
    protobuf can read back. -/
structure Sent.Sendable (m : Sent P) : Prop where
  known : m.rkind ∈ noslatedRequestTypes
  typed : P.typeOf m.msg = bodyType m.mkind m.rkind m.code
  roundTrips : P.RoundTrips m.msg

/-! ## The grammar of a message -/

def bodyType? (h : MessageHeader) : Option MessageType :=
  match MessageKind.ofWire? h.messageKind with
  | some .request => (RequestKind.ofWire? h.requestKind).map .request
  | some .response =>
    if CanonicalCode.ofWire h.code ≠ .ok then some .errorResponse else (RequestKind.ofWire? h.requestKind).map .response
  | none => none

def scan (bs : List UInt8) : Head (Frame P) UInt8 :=
  if bs.length < messageHeaderSize then .more
  else match P.parseHeader (bs.take messageHeaderSize) with
    | none => .bad
    | some h =>
      if bs.length < messageHeaderSize + h.contentLength.toNat then .more
      else match (bodyType? h).bind fun t => P.parse t ((bs.drop messageHeaderSize).take h.contentLength.toNat) with
        | none => .bad
        | some m => .frame ⟨h, m⟩ (bs.drop (messageHeaderSize + h.contentLength.toNat))

variable {bs : List UInt8}

theorem scan_short (h : bs.length < messageHeaderSize) : scan P bs = .more := by simp [scan, h]

@[simp] theorem scan_nil : scan P [] = .more := scan_short P (by decide)

theorem scan_long (h : messageHeaderSize ≤ bs.length) : scan P bs = match P.parseHeader (bs.take messageHeaderSize) with
      | none => .bad
      | some hd =>
        if bs.length < messageHeaderSize + hd.contentLength.toNat then .more
        else match (bodyType? hd).bind fun t => P.parse t ((bs.drop messageHeaderSize).take hd.contentLength.toNat) with
          | none => .bad
          | some m => .frame ⟨hd, m⟩ (bs.drop (messageHeaderSize + hd.contentLength.toNat)) := by
  rw [scan, if_neg (by omega)]

/-- A verdict other than `more` is about bytes that are all there. -/
theorem scan_append (ys : List UInt8) (h : scan P bs ≠ .more) : scan P (bs ++ ys) = match scan P bs with
      | .frame f rest => .frame f (rest ++ ys)
      | v => v := by
  by_cases hl : bs.length < messageHeaderSize
  · exact absurd (scan_short P hl) h
  have hlen : messageHeaderSize ≤ bs.length := by omega
  have htake : (bs ++ ys).take messageHeaderSize = bs.take messageHeaderSize := take_append_of_le_length hlen
  rw [scan_long P hlen] at h ⊢
  rw [scan_long P (by simp; omega), htake]
  cases hp : P.parseHeader (bs.take messageHeaderSize) with
  | none => rfl
  | some hd =>
    simp only [hp] at h ⊢
    by_cases hc : bs.length < messageHeaderSize + hd.contentLength.toNat
    · simp [hc] at h
    have hbody : ((bs ++ ys).drop messageHeaderSize).take hd.contentLength.toNat =
        (bs.drop messageHeaderSize).take hd.contentLength.toNat := by
      rw [drop_append_of_le_length hlen, take_append_of_le_length (by simp; omega)]
    have hrest : (bs ++ ys).drop (messageHeaderSize + hd.contentLength.toNat) =
        bs.drop (messageHeaderSize + hd.contentLength.toNat) ++ ys := drop_append_of_le_length (by omega)
    rw [if_neg hc, if_neg (by simp; omega), hbody, hrest]
    split <;> rfl

theorem scan_frame {rest : List UInt8} {f : Frame P} (h : scan P bs = .frame f rest) :
    messageHeaderSize + f.header.contentLength.toNat ≤ bs.length ∧
      rest = bs.drop (messageHeaderSize + f.header.contentLength.toNat) := by
  by_cases hl : bs.length < messageHeaderSize
  · rw [scan_short P hl] at h; cases h
  rw [scan_long P (by omega)] at h
  split at h
  · cases h
  · split at h
    · cases h
    · split at h
      · cases h
      · injection h with h1 h2
        subst h1 h2
        exact ⟨Nat.le_of_not_lt ‹_›, rfl⟩

def framing : Framing (Frame P) UInt8 where
  head := scan P
  shorter h := by
    obtain ⟨h1, rfl⟩ := scan_frame P h
    simp only [length_drop, messageHeaderSize] at h1 ⊢
    omega
  frame_append ys h := by rw [scan_append P ys (by rw [h]; simp), h]
  bad_append ys h := by rw [scan_append P ys (by rw [h]; simp), h]

@[simp] theorem framing_head (bs : List UInt8) : (framing P).head bs = scan P bs := rfl

/-! ## The decoder is the grammar -/

/-- Between two calls: a kept header is the one at the front of the buffer. -/
structure Decoder.Ok (d : Decoder P) : Prop where
  fresh : d.header = none → d.readSize = 0
  parsed : ∀ h, d.header = some h → d.readSize = messageHeaderSize ∧ messageHeaderSize ≤ d.buffer.length ∧
    P.parseHeader (d.buffer.take messageHeaderSize) = some h

theorem init_ok : Decoder.Ok P {} := ⟨fun _ => rfl, fun h e => by cases e⟩

theorem insertBuffer_buffer (d : Decoder P) (bs : List UInt8) : (insertBuffer P d bs).buffer = d.buffer ++ bs := by
  unfold insertBuffer
  split
  · rfl
  · have : bs = [] := eq_nil_of_length_eq_zero (by omega)
    simp [this]

variable {d : Decoder P}

theorem insertBuffer_ok (h : d.Ok) (bs : List UInt8) : (insertBuffer P d bs).Ok := by
  have hb := insertBuffer_buffer P d bs
  have hh : (insertBuffer P d bs).header = d.header := by unfold insertBuffer; split <;> rfl
  have hr : (insertBuffer P d bs).readSize = d.readSize := by unfold insertBuffer; split <;> rfl
  refine ⟨fun e => by rw [hr]; exact h.fresh (hh ▸ e), fun hd e => ?_⟩
  obtain ⟨h1, h2, h3⟩ := h.parsed hd (hh ▸ e)
  refine ⟨hr.trans h1, by rw [hb, length_append]; omega, ?_⟩
  rw [hb, take_append_of_le_length h2]; exact h3

theorem decodeContent_eq (d : Decoder P) (h : MessageHeader) :
    decodeContent P d h =
      if d.buffer.length < messageHeaderSize + h.contentLength.toNat then (.more, d)
      else match (bodyType? h).bind fun t => P.parse t ((d.buffer.drop messageHeaderSize).take h.contentLength.toNat) with
        | none => (.error, d)
        | some m => (.ok, { d with readSize := d.readSize + h.contentLength.toNat, content := some m }) := by
  unfold decodeContent
  split
  · rfl
  unfold bodyType?
  split
  · unfold decodeRequest decodeAs
    cases RequestKind.ofWire? h.requestKind <;> rfl
  · unfold decodeResponse decodeAs
    split
    · rfl
    · cases RequestKind.ofWire? h.requestKind <;> rfl
  · rfl

variable {h : MessageHeader}

theorem bodyType?_kind {t : MessageType} (e : bodyType? h = some t) :
    ∃ k, MessageKind.ofWire? h.messageKind = some k := by
  unfold bodyType? at e
  cases hk : MessageKind.ofWire? h.messageKind with
  | none => rw [hk] at e; cases e
  | some k => exact ⟨k, rfl⟩

/-- One pass of the loop on a decoder that has (or has just parsed) the header `h`. -/
theorem readContent_spec (hh : d.header = some h) (hr : d.readSize = messageHeaderSize)
    (hl : messageHeaderSize ≤ d.buffer.length) (hp : P.parseHeader (d.buffer.take messageHeaderSize) = some h) :
    match scan P d.buffer with
    | .more => decodeContent P d h = (.more, d)
    | .bad => decodeContent P d h = (.error, d)
    | .frame f rest => ∃ d', decodeContent P d h = (.ok, d') ∧
        dispatch P d' = ([.dispatch f], { readSize := 0, buffer := rest, header := none, content := none }) := by
  rw [scan_long P hl, hp, decodeContent_eq]
  simp only
  by_cases hc : d.buffer.length < messageHeaderSize + h.contentLength.toNat
  · simp [hc]
  simp only [hc, if_false]
  cases hb : (bodyType? h).bind fun t => P.parse t ((d.buffer.drop messageHeaderSize).take h.contentLength.toNat) with
  | none => rfl
  | some m =>
    obtain ⟨t, ht, -⟩ := Option.bind_eq_some_iff.mp hb
    obtain ⟨k, hk⟩ := bodyType?_kind ht
    exact ⟨_, rfl, by simp [dispatch, hh, hk, takeContentOwnership, hr]⟩

/-- `Decode` on `d`, with the `Dispatch` after an Ok, is what the grammar says of the
    buffer and ends in `d'`. -/
def Decodes (d d' : Decoder P) : Prop :=
  match scan P d.buffer with
  | .more => decode P d = (.more, d') ∧ d'.buffer = d.buffer
  | .bad => decode P d = (.error, d') ∧ d'.buffer = d.buffer
  | .frame f rest => (∃ d₁, decode P d = (.ok, d₁) ∧ dispatch P d₁ = ([.dispatch f], d')) ∧ d'.buffer = rest

theorem decodes_of_header (d₀ : Decoder P) {hd : MessageHeader} (hl : messageHeaderSize ≤ d.buffer.length)
    (hb : d₀.buffer = d.buffer) (hh : d₀.header = some hd) (hr : d₀.readSize = messageHeaderSize)
    (hp : P.parseHeader (d.buffer.take messageHeaderSize) = some hd) (hdec : decode P d = decodeContent P d₀ hd) :
    ∃ d', d'.Ok ∧ Decodes P d d' := by
  have hl₀ : messageHeaderSize ≤ d₀.buffer.length := by rw [hb]; exact hl
  have hp₀ : P.parseHeader (d₀.buffer.take messageHeaderSize) = some hd := by rw [hb]; exact hp
  have hspec := readContent_spec P hh hr hl₀ hp₀
  have hok : d₀.Ok := by
    refine ⟨fun e => ?_, fun h' e => ?_⟩
    · rw [hh] at e; cases e
    · rw [hh] at e; cases e; exact ⟨hr, hl₀, hp₀⟩
  rw [hb] at hspec
  unfold Decodes
  rw [hdec]
  cases hs : scan P d.buffer with
  | more => rw [hs] at hspec; exact ⟨d₀, hok, hspec, hb⟩
  | bad => rw [hs] at hspec; exact ⟨d₀, hok, hspec, hb⟩
  | frame f rest =>
    rw [hs] at hspec
    exact ⟨_, ⟨fun _ => rfl, fun _ e => by cases e⟩, hspec, rfl⟩

theorem decode_spec (h : d.Ok) : ∃ d', d'.Ok ∧ Decodes P d d' := by
  by_cases hl : d.buffer.length < messageHeaderSize
  · refine ⟨d, h, ?_⟩
    unfold Decodes
    rw [scan_short P hl]
    exact ⟨by simp [decode, hl], rfl⟩
  have hlen : messageHeaderSize ≤ d.buffer.length := by omega
  cases hh : d.header with
  | some hd =>
    obtain ⟨hr, -, hp⟩ := h.parsed hd hh
    exact decodes_of_header P d hlen rfl hh hr hp (by simp [decode, hl, hh])
  | none =>
    cases hp : P.parseHeader (d.buffer.take messageHeaderSize) with
    | none =>
      refine ⟨d, h, ?_⟩
      unfold Decodes
      rw [scan_long P hlen, hp]
      exact ⟨by simp [decode, hl, hh, hp], rfl⟩
    | some hd =>
      exact decodes_of_header P { d with header := some hd, readSize := messageHeaderSize } hlen rfl rfl rfl hp
        (by simp [decode, hl, hh, hp])

/-! ## `OnReadable` is draining -/

/-- The error call a read ends with, if the bytes it stops at are no message. -/
def errorAt (bs : List UInt8) : List (Out P) :=
  match scan P bs with
  | .bad => [.onError]
  | _ => []

/-- By induction on the passes left, which the buffer's length bounds. -/
theorem readLoop_spec : ∀ (n : Nat) (d : Decoder P), d.Ok → d.buffer.length < n →
    (readLoop P n d).1.Ok ∧ (readLoop P n d).1.buffer = ((framing P).drain d.buffer).2 ∧
      (readLoop P n d).2 = ((framing P).drain d.buffer).1.map .dispatch ++ errorAt P ((framing P).drain d.buffer).2 := by
  intro n
  induction n with
  | zero => intro d _ h; omega
  | succ n ih =>
    intro d hd hn
    obtain ⟨d', hok, hdec⟩ := decode_spec P hd
    unfold Decodes at hdec
    have hstop : (∀ f rest, scan P d.buffer ≠ .frame f rest) → (framing P).drain d.buffer = ([], d.buffer) :=
      fun h => (framing P).drain_stop h
    cases hs : scan P d.buffer with
    | more =>
      rw [hs] at hdec
      rw [hstop fun f rest => by rw [hs]; simp]
      simp [readLoop, readOnce, hdec.1, hok, hdec.2, errorAt, hs]
    | bad =>
      rw [hs] at hdec
      rw [hstop fun f rest => by rw [hs]; simp]
      simp [readLoop, readOnce, hdec.1, hok, hdec.2, errorAt, hs]
    | frame f rest =>
      rw [hs] at hdec
      obtain ⟨⟨d₁, h1, h2⟩, hb⟩ := hdec
      have hhead : (framing P).head d.buffer = .frame f rest := hs
      have hlt := (framing P).shorter hhead
      obtain ⟨i1, i2, i3⟩ := ih d' hok (by rw [hb]; omega)
      rw [(framing P).drain_frame hhead]
      rw [hb] at i2 i3
      simp [readLoop, readOnce, h1, h2, i1, i2, i3]

theorem onReadable_spec (h : d.Ok) :
    (onReadable P d).1.Ok ∧ (onReadable P d).1.buffer = ((framing P).drain d.buffer).2 ∧
      (onReadable P d).2 = ((framing P).drain d.buffer).1.map .dispatch ++ errorAt P ((framing P).drain d.buffer).2 :=
  readLoop_spec P _ d h (Nat.lt_succ_self _)

/-! ## A socket is a receiver -/

/-- A socket against the receiver of its framing: the same bytes are pending, the same
    frames were handed out, and without a scheduled immediate nothing is left to read.
    An error was reported only if what was received is no sequence of messages. -/
structure Refines (r : Rx P) (evs : List (RxEv UInt8)) : Prop where
  ok : r.socket.decoder.Ok
  pending : r.socket.decoder.buffer = ((framing P).rxRun evs).pending
  got : r.out.filterMap (Out.frame? P) = ((framing P).rxRun evs).got
  idle : r.socket.readImmediate = false → (framing P).drain r.socket.decoder.buffer = ([], r.socket.decoder.buffer)
  noFinish : Out.onFinished ∉ r.out
  clean : Out.onError ∈ r.out → scan P ((framing P).drain (received evs)).2 = .bad

theorem rxRun_concat (evs : List (RxEv UInt8)) (e : RxEv UInt8) :
    rxRun P (evs ++ [e]) = rxStep P (rxRun P evs) e := by simp [rxRun]

theorem setReadable_readImmediate (s : SocketHolder P) : (setReadable P s).readImmediate = true := by
  unfold setReadable; split <;> simp_all

theorem setReadable_decoder (s : SocketHolder P) : (setReadable P s).decoder = s.decoder := by
  unfold setReadable; split <;> rfl

theorem filterMap_dispatch (fs : List (Frame P)) : (fs.map Out.dispatch).filterMap (Out.frame? P) = fs := by
  induction fs with
  | nil => rfl
  | cons f fs ih => simp [Out.frame?, ih]

theorem filterMap_errorAt (bs : List UInt8) : (errorAt P bs).filterMap (Out.frame? P) = [] := by
  unfold errorAt; split <;> rfl

variable {r : Rx P} {evs : List (RxEv UInt8)}

theorem refines_chunk (h : Refines P r evs) (bs : List UInt8) :
    Refines P (rxStep P r (.chunk bs)) (evs ++ [.chunk bs]) := by
  have hd : (rxStep P r (.chunk bs)).socket.decoder = insertBuffer P r.socket.decoder bs := by
    simp [rxStep, onFrame, setReadable_decoder]
  have hi : (rxStep P r (.chunk bs)).socket.readImmediate = true := by
    simp [rxStep, onFrame, setReadable_readImmediate]
  constructor
  · rw [hd]; exact insertBuffer_ok P h.ok bs
  · rw [hd, insertBuffer_buffer, h.pending, Framing.rxRun_concat]; rfl
  · rw [Framing.rxRun_concat]; exact h.got
  · intro e; rw [hi] at e; cases e
  · exact h.noFinish
  · intro e
    rw [Framing.received_chunk]
    exact (framing P).bad_drain (h.clean e) bs

theorem refines_read (h : Refines P r evs) : Refines P (rxStep P r .read) (evs ++ [.read]) := by
  obtain ⟨-, hrest⟩ := (framing P).rxRun_drain evs
  rw [← h.pending] at hrest
  by_cases hi : r.socket.readImmediate = true
  · -- the immediate runs: the buffer is drained
    obtain ⟨h1, h2, h3⟩ := onReadable_spec P h.ok
    have hs : rxStep P r .read = ⟨⟨(onReadable P r.socket.decoder).1, false⟩, r.out ++ (onReadable P r.socket.decoder).2⟩ := by
      simp [rxStep, onImmediate, hi]
    rw [hs]
    constructor
    · exact h1
    · rw [Framing.rxRun_concat]
      simp only [Framing.rxStep, h2, h.pending]
    · rw [Framing.rxRun_concat]
      simp only [Framing.rxStep, filterMap_append, h3, filterMap_dispatch, filterMap_errorAt, h.got, h.pending,
        append_nil]
    · intro _
      simp only [h2]
      exact (framing P).drain_drain _
    · intro e
      simp only [h3, mem_append, mem_map] at e
      rcases e with e | ⟨f, -, e⟩ | e
      · exact h.noFinish e
      · cases e
      · unfold errorAt at e; split at e <;> simp at e
    · intro e
      rw [Framing.received_read]
      simp only [h3, mem_append, mem_map] at e
      rcases e with e | ⟨f, -, e⟩ | e
      · exact h.clean e
      · cases e
      · rw [← hrest]
        unfold errorAt at e
        split at e
        · assumption
        · simp at e
  · -- there is no immediate to run, and nothing to read either
    have hs : rxStep P r .read = r := by simp [rxStep, onImmediate, hi]
    have hidle := h.idle (by simpa using hi)
    rw [h.pending] at hidle
    rw [hs]
    constructor
    · exact h.ok
    · rw [Framing.rxRun_concat]
      simp only [Framing.rxStep, hidle, h.pending]
    · rw [Framing.rxRun_concat]
      simp only [Framing.rxStep, hidle, h.got, append_nil]
    · exact h.idle
    · exact h.noFinish
    · rw [Framing.received_read]; exact h.clean

theorem refines (evs : List (RxEv UInt8)) : Refines P (rxRun P evs) evs := by
  induction evs using List.reverseRecOn with
  | nil =>
    have hnil : (framing P).drain [] = ([], []) := (framing P).drain_stop fun f rest => by simp
    exact ⟨init_ok P, rfl, rfl, fun _ => hnil, by simp [rxRun], by simp [rxRun]⟩
  | append_singleton evs e ih =>
    rw [rxRun_concat]
    cases e with
    | chunk bs => exact refines_chunk P ih bs
    | read => exact refines_read P ih

theorem out_eq_map {out : List (Out P)} (he : Out.onError ∉ out) (hf : Out.onFinished ∉ out) :
    out = (out.filterMap (Out.frame? P)).map .dispatch := by
  induction out with
  | nil => rfl
  | cons o out ih =>
    simp only [mem_cons, not_or] at he hf
    cases o with
    | dispatch f => simp [Out.frame?, ← ih he.2 hf.2]
    | onError => exact absurd rfl he.1
    | onFinished => exact absurd rfl hf.1

theorem out_of_clean (hc : scan P ((framing P).drain (received evs)).2 ≠ .bad) :
    (rxRun P evs).out = ((framing P).drain (seen evs)).1.map .dispatch := by
  have h := refines P evs
  rw [out_eq_map P (fun e => hc (h.clean e)) h.noFinish, h.got, Framing.rxRun_eq]

/-! ## What is written is read back -/

variable {m : Sent P}

theorem header_contentLength (h : P.RoundTrips m.msg) :
    (m.header P).contentLength.toNat = (P.serialize m.msg).length := by
  have := h.short
  simp only [Sent.header, UInt32.toNat_ofNat']
  omega

theorem bodyType?_header (h : m.Sendable) : bodyType? (m.header P) = some (P.typeOf m.msg) := by
  rw [h.typed]
  cases hk : m.mkind with
  | request => simp [bodyType?, Sent.header, bodyType, hk, RequestKind.ofWire?_toWire h.known]
  | response =>
    by_cases hc : m.code = .ok <;>
      simp [bodyType?, Sent.header, bodyType, hk, hc, RequestKind.ofWire?_toWire h.known]

theorem write_encodes (h : m.Sendable) : (framing P).Encodes (write P) (Sent.frame P) m := by
  have hlen := header_contentLength P h.roundTrips
  have hsz := P.header_size (m.header P)
  constructor
  · intro ys
    have htake : (write P m ++ ys).take messageHeaderSize = P.serializeHeader (m.header P) := by
      rw [write, append_assoc, ← hsz]; exact take_left
    have hdrop : (write P m ++ ys).drop messageHeaderSize = P.serialize m.msg ++ ys := by
      rw [write, append_assoc, ← hsz]; exact drop_left
    have hl : (write P m ++ ys).length = messageHeaderSize + (P.serialize m.msg).length + ys.length := by
      simp [write, hsz]; omega
    rw [framing_head, scan_long P (by omega), htake, P.header_parse]
    simp only [hlen, bodyType?_header P h, Option.bind_some, hdrop]
    rw [if_neg (by omega), take_left, h.roundTrips.parses]
    simp only [← drop_drop, hdrop, drop_left]
    rfl
  · intro xs hx hne
    have hlt : xs.length < messageHeaderSize + (P.serialize m.msg).length := by
      rcases Nat.lt_or_ge xs.length (write P m).length with hlt | hge
      · simpa [write, hsz] using hlt
      · exact absurd (hx.eq_of_length_le hge) hne
    by_cases hs : xs.length < messageHeaderSize
    · exact scan_short P hs
    · have htake : xs.take messageHeaderSize = P.serializeHeader (m.header P) := by
        obtain ⟨zs, hz⟩ := hx
        have : (xs ++ zs).take messageHeaderSize = P.serializeHeader (m.header P) := by
          rw [hz, write, ← hsz]; exact take_left
        rwa [take_append_of_le_length (by omega)] at this
      rw [framing_head, scan_long P (by omega), htake, P.header_parse]
      simp [hlen, hlt]

theorem frame_call (h : m.rkind ∈ noslatedRequestTypes) : (m.frame P).call = m.call P := by
  cases hk : m.mkind <;>
    simp [Frame.call, Sent.frame, Sent.header, Sent.call, hk, RequestKind.ofWire?_toWire h]

/-- A written message list, received in any chunks with reads anywhere and one after the
    last byte, is dispatched as it was written: the delegate's calls are the messages',
    in order and each once, the headers taken are those written, no error is reported,
    and the decoder is left empty. -/
theorem framing_round_trip (msgs : List (Sent P)) (hs : ∀ m ∈ msgs, m.Sendable) (evs : List (RxEv UInt8))
    (hb : received evs = msgs.flatMap (write P)) (hl : late evs = []) :
    (rxRun P evs).out.map (Out.call P) = msgs.map (Sent.call P) ∧
      (rxRun P evs).out.filterMap (Out.frame? P) = msgs.map (Sent.frame P) ∧ Out.onError ∉ (rxRun P evs).out ∧
      (rxRun P evs).socket.decoder.buffer = [] ∧ (rxRun P evs).socket.decoder.header = none := by
  have h := refines P evs
  have hd : (framing P).drain (received evs) = (msgs.map (Sent.frame P), []) := by
    have hnil : (framing P).drain [] = ([], []) := (framing P).drain_stop fun f rest => by simp
    have := Framing.drain_encode (F := framing P) (fun m hm => write_encodes P (hs m hm)) []
    rw [hb]; simpa [hnil] using this
  have hseen : seen evs = received evs := by simp [received, hl]
  have hout : (rxRun P evs).out = (msgs.map (Sent.frame P)).map .dispatch := by
    rw [out_of_clean P (by rw [hd]; simp), hseen, hd]
  have hbuf : (rxRun P evs).socket.decoder.buffer = [] := by
    rw [h.pending, Framing.rxRun_eq, hseen, hd, hl]; rfl
  refine ⟨?_, by rw [hout, filterMap_dispatch], by rw [hout]; simp, hbuf, ?_⟩
  · rw [hout, map_map, map_map]
    exact map_congr_left fun m hm => frame_call P (hs m hm).known
  · cases hh : (rxRun P evs).socket.decoder.header with
    | none => rfl
    | some hd =>
      obtain ⟨-, hlen, -⟩ := h.ok.parsed hd hh
      rw [hbuf] at hlen
      exact absurd hlen (by decide)

/-- An open-stream request, and an error answer with the message `x`. -/
def twoMessages : List (Sent .plain) :=
  [⟨.request, 7, .streamOpen, (.request .streamOpen, []), .ok⟩,
    ⟨.response, 9, .trigger, (.errorResponse, [0x0a, 0x01, 0x78]), .clientError⟩]

def twoBytes : List UInt8 := twoMessages.flatMap (write .plain)

theorem twoMessages_sendable : ∀ m ∈ twoMessages, m.Sendable := by
  intro m hm
  simp only [twoMessages, mem_cons, not_mem_nil, or_false] at hm
  rcases hm with rfl | rfl
  · exact ⟨by decide, rfl, by decide, rfl⟩
  · exact ⟨by decide, rfl, by decide, rfl⟩

/-- Cut inside the first header, with an empty chunk and reads in between. -/
theorem framing_round_trip_two :
    let evs : List (RxEv UInt8) :=
      [.chunk (twoBytes.take 10), .read, .chunk [], .chunk ((twoBytes.drop 10).take 30), .read, .chunk (twoBytes.drop 40), .read]
    (rxRun .plain evs).out.map (Out.call .plain) = twoMessages.map (Sent.call .plain) :=
  (framing_round_trip .plain twoMessages twoMessages_sendable _ (by decide) (by decide)).1

/-! ## End of file -/

variable {s : SocketHolder P}

/-- What `OnEoF` does to the bytes still buffered. -/
theorem onEoF_spec (h : s.decoder.Ok) : (onEoF P s).2 = match scan P s.decoder.buffer with
      | .more => [.onFinished]
      | .bad => [.onError]
      | .frame f _ => [.dispatch f, .onFinished] := by
  obtain ⟨d', -, hdec⟩ := decode_spec P h
  unfold Decodes at hdec
  cases hs : scan P s.decoder.buffer with
  | more => rw [hs] at hdec; simp [onEoF, hdec.1]
  | bad => rw [hs] at hdec; simp [onEoF, hdec.1]
  | frame f rest =>
    rw [hs] at hdec
    obtain ⟨⟨d₁, h1, h2⟩, -⟩ := hdec
    simp [onEoF, h1, h2]

/-- On bytes whose drained rest is no malformed message, `OnEoF` dispatches the first
    buffered message and finishes. -/
theorem onEoF_clean (h : s.decoder.Ok) (hc : scan P ((framing P).drain s.decoder.buffer).2 ≠ .bad) :
    (onEoF P s).2 = (((framing P).drain s.decoder.buffer).1.take 1).map .dispatch ++ [.onFinished] := by
  rw [onEoF_spec P h]
  cases hs : scan P s.decoder.buffer with
  | more =>
    rw [(framing P).drain_stop fun f rest => by simp [hs]]
    rfl
  | bad =>
    rw [(framing P).drain_stop fun f rest => by simp [hs]] at hc
    exact absurd hs hc
  | frame f rest =>
    rw [(framing P).drain_frame (show (framing P).head s.decoder.buffer = .frame f rest from hs)]
    rfl

theorem take_one_eq_iff {α : Type} (l : List α) : l.take 1 = l ↔ l.length ≤ 1 := by
  constructor
  · intro h
    rw [← h]; simp [length_take]
  · exact take_of_length_le

/-- A stream of messages may end anywhere, also inside a message. Every message complete
    by then is dispatched, once and in order, before `OnFinished`, exactly if at most one
    of them became complete after the last read. -/
theorem eof_delivers_iff (msgs : List (Sent P)) (hs : ∀ m ∈ msgs, m.Sendable) (evs : List (RxEv UInt8))
    (hb : received evs <+: msgs.flatMap (write P)) :
    (rxRunEoF P evs).out = (complete (write P) msgs (received evs)).map (fun m => .dispatch (m.frame P)) ++ [.onFinished] ↔
      (complete (write P) msgs (received evs)).length ≤ (complete (write P) msgs (seen evs)).length + 1 := by
  have h := refines P evs
  have henc : ∀ m ∈ msgs, (framing P).Encodes (write P) (Sent.frame P) m := fun m hm => write_encodes P (hs m hm)
  obtain ⟨hr1, hr2⟩ := Framing.drain_prefix (scan_nil P) henc hb
  obtain ⟨hseen, -⟩ := Framing.drain_prefix (scan_nil P) henc ((prefix_append _ _).trans hb)
  obtain ⟨hall, hrest⟩ := (framing P).rxRun_drain evs
  -- what is buffered at end of file: the messages complete by then and not read yet
  have hgot : ((framing P).rxRun evs).got = (complete (write P) msgs (seen evs)).map (Sent.frame P) := by
    rw [Framing.rxRun_eq]; exact hseen
  have hclean : scan P ((framing P).drain (received evs)).2 ≠ .bad := by
    rw [← framing_head, hr2]; simp
  rw [hgot, ← h.pending, hr1] at hall
  rw [← h.pending] at hrest
  have hlen := congrArg List.length hall
  simp only [length_append, length_map] at hlen
  have hout : (rxRunEoF P evs).out = (complete (write P) msgs (seen evs)).map (fun m => .dispatch (m.frame P)) ++
      ((((framing P).drain (rxRun P evs).socket.decoder.buffer).1.take 1).map .dispatch ++ [.onFinished]) := by
    rw [rxRunEoF, onEoF_clean P h.ok (by rw [hrest]; exact hclean), out_of_clean P hclean, hseen, map_map]
    rfl
  have hsplit : (complete (write P) msgs (received evs)).map (fun m => Out.dispatch (m.frame P)) =
      (complete (write P) msgs (seen evs)).map (fun m => .dispatch (m.frame P)) ++
        ((framing P).drain (rxRun P evs).socket.decoder.buffer).1.map .dispatch := by
    have := congrArg (List.map Out.dispatch) hall
    simpa [map_map, Function.comp_def] using this.symm
  rw [hout, hsplit, ← append_assoc, append_left_inj, append_right_inj,
    List.map_inj_right (fun f g e => by injection e), take_one_eq_iff]
  omega

/-- Any octets, in any chunks: what the reads dispatch is what the octets that were read hold,
    and with what end of file adds it is a beginning of what all of them hold. -/
theorem eof_dispatches_prefix (evs : List (RxEv UInt8)) :
    ∃ last : List (Frame P), last.length ≤ 1 ∧
      (rxRunEoF P evs).out.filterMap (Out.frame? P) = ((framing P).drain (seen evs)).1 ++ last ∧
      ((framing P).drain (seen evs)).1 ++ last <+: ((framing P).drain (received evs)).1 := by
  have h := refines P evs
  obtain ⟨hall, -⟩ := (framing P).rxRun_drain evs
  have hgot : ((framing P).rxRun evs).got = ((framing P).drain (seen evs)).1 := by rw [Framing.rxRun_eq]
  rw [hgot, ← h.pending] at hall
  rw [rxRunEoF, onEoF_spec P h.ok, filterMap_append, h.got, hgot, ← hall]
  cases hs : scan P (rxRun P evs).socket.decoder.buffer with
  | more | bad => exact ⟨[], Nat.zero_le 1, rfl, by simp⟩
  | frame f rest =>
    refine ⟨[f], le_rfl, rfl, ?_⟩
    rw [(framing P).drain_frame (show (framing P).head _ = .frame f rest from hs)]
    exact (prefix_append_right_inj _).mpr ⟨_, rfl⟩

/-- The second message still incomplete at the read, complete at end of file. -/
theorem eof_delivers_last :
    (rxRunEoF .plain [.chunk (twoBytes.take 30), .read, .chunk (twoBytes.drop 30)]).out =
      twoMessages.map (fun m => .dispatch (m.frame .plain)) ++ [.onFinished] :=
  (eof_delivers_iff .plain twoMessages twoMessages_sendable _ (by decide)).mpr (by decide)

/-- Two messages in one chunk, and end of file before the immediate ran: the second is
    never dispatched. -/
theorem eof_drops_second :
    (∀ m ∈ twoMessages, m.Sendable) ∧ received [RxEv.chunk twoBytes] = twoMessages.flatMap (write .plain) ∧
      (rxRunEoF .plain [.chunk twoBytes]).out.map (Out.call .plain) = [.onRequest 7 (some .streamOpen) (.request .streamOpen, []), .onFinished] ∧
      (rxRunEoF .plain [.chunk twoBytes]).out ≠ twoMessages.map (fun m => .dispatch (m.frame .plain)) ++ [.onFinished] := by
  refine ⟨twoMessages_sendable, rfl, rfl, fun h => ?_⟩
  have := congrArg List.length h
  revert this
  decide

/-! ## An error is final -/

/-- The calls on a connection. `decodeOnce` is one `Decode`, with the `Dispatch` after an Ok. -/
inductive SocketCall where
  | insertBuffer (bs : List UInt8)
  | onFrame (bs : List UInt8)
  | decodeOnce
  | onReadable
  | immediate
  | onEoF

def socketCall (r : Rx P) : SocketCall → Rx P
  | .insertBuffer bs => { r with socket := { r.socket with decoder := insertBuffer P r.socket.decoder bs } }
  | .onFrame bs => { r with socket := onFrame P r.socket bs }
  | .decodeOnce =>
    ⟨{ r.socket with decoder := (readOnce P r.socket.decoder).1 }, r.out ++ (readOnce P r.socket.decoder).2.1⟩
  | .onReadable => ⟨{ r.socket with decoder := (onReadable P r.socket.decoder).1 }, r.out ++ (onReadable P r.socket.decoder).2⟩
  | .immediate => ⟨(onImmediate P r.socket).1, r.out ++ (onImmediate P r.socket).2⟩
  | .onEoF => ⟨(onEoF P r.socket).1, r.out ++ (onEoF P r.socket).2⟩

def socketRun (calls : List SocketCall) : Rx P := calls.foldl (socketCall P) {}

/-- The next `Decode` returns an error. -/
def Decoder.Failed (d : Decoder P) : Prop := (decode P d).1 = .error

theorem decodeContent_append (he : (decodeContent P d h).1 = .error)
    (hlen : messageHeaderSize ≤ d.buffer.length) (bs : List UInt8) :
    (decodeContent P { d with buffer := d.buffer ++ bs } h).1 = .error ∧ (decodeContent P d h).2 = d := by
  rw [decodeContent_eq] at he
  by_cases hc : d.buffer.length < messageHeaderSize + h.contentLength.toNat
  · simp [hc] at he
  have hlong : ¬(d.buffer ++ bs).length < messageHeaderSize + h.contentLength.toNat := by
    rw [length_append]
    omega
  have hbody : ((d.buffer ++ bs).drop messageHeaderSize).take h.contentLength.toNat =
      (d.buffer.drop messageHeaderSize).take h.contentLength.toNat := by
    rw [drop_append_of_le_length hlen, take_append_of_le_length (by rw [length_drop]; omega)]
  rw [if_neg hc] at he
  simp only [decodeContent_eq, if_neg hlong, if_neg hc, hbody]
  cases hb : (bodyType? h).bind fun t => P.parse t ((d.buffer.drop messageHeaderSize).take h.contentLength.toNat) with
  | none => exact ⟨rfl, rfl⟩
  | some m => simp [hb] at he

/-- What the failed `Decode` leaves, with more bytes behind it, fails again. -/
theorem Decoder.Failed.again (hf : d.Failed) (bs : List UInt8) :
    Decoder.Failed P { d with buffer := d.buffer ++ bs } ∧ Decoder.Failed P { (decode P d).2 with buffer := (decode P d).2.buffer ++ bs } := by
  obtain ⟨readSize, buffer, header, content⟩ := d
  unfold Decoder.Failed at hf ⊢
  by_cases hl : buffer.length < messageHeaderSize
  · simp [decode, hl] at hf
  have hlen : messageHeaderSize ≤ buffer.length := by omega
  have hlong : ¬(buffer ++ bs).length < messageHeaderSize := by
    rw [length_append]
    omega
  have htake : (buffer ++ bs).take messageHeaderSize = buffer.take messageHeaderSize := take_append_of_le_length hlen
  cases header with
  | some h =>
    have hdec : decode P ⟨readSize, buffer, some h, content⟩ = decodeContent P ⟨readSize, buffer, some h, content⟩ h := by
      simp [decode, hl]
    rw [hdec] at hf ⊢
    obtain ⟨hagain, hsame⟩ := decodeContent_append P hf hlen bs
    rw [hsame]
    simp only [decode, if_neg hlong]
    exact ⟨hagain, hagain⟩
  | none =>
    cases hp : P.parseHeader (buffer.take messageHeaderSize) with
    | none =>
      have hdec : decode P ⟨readSize, buffer, none, content⟩ = (.error, ⟨readSize, buffer, none, content⟩) := by
        simp [decode, hl, hp]
      rw [hdec]
      simp only [decode, if_neg hlong, htake, hp, and_self]
    | some h =>
      -- the first failed `Decode` also keeps the header it has parsed
      have hdec : decode P ⟨readSize, buffer, none, content⟩ = decodeContent P ⟨messageHeaderSize, buffer, some h, content⟩ h := by
        simp [decode, hl, hp]
      rw [hdec] at hf ⊢
      obtain ⟨hagain, hsame⟩ := decodeContent_append P hf hlen bs
      rw [hsame]
      simp only [decode, if_neg hlong, htake, hp]
      exact ⟨hagain, hagain⟩

theorem Decoder.Failed.decoded (hf : d.Failed) : (decode P d).2.Failed := by
  have h := (hf.again P []).2
  simpa using h

theorem Decoder.Failed.insertBuffer (hf : d.Failed) (bs : List UInt8) : (insertBuffer P d bs).Failed := by
  unfold Ipc.insertBuffer
  split
  · exact (hf.again P bs).1
  · exact hf

theorem Decoder.Failed.readOnce (hf : d.Failed) : readOnce P d = ((decode P d).2, [.onError], false) := by
  have he : decode P d = (.error, (decode P d).2) := Prod.ext hf rfl
  unfold Ipc.readOnce
  rw [he]

theorem Decoder.Failed.onReadable (hf : d.Failed) : onReadable P d = ((decode P d).2, [.onError]) := by
  rw [Ipc.onReadable, readLoop, hf.readOnce]

theorem socketCall_failed (hf : r.socket.decoder.Failed) (c : SocketCall) :
    (socketCall P r c).socket.decoder.Failed ∧ (socketCall P r c).out.filterMap (Out.frame? P) = r.out.filterMap (Out.frame? P) := by
  cases c with
  | insertBuffer bs => exact ⟨hf.insertBuffer P bs, rfl⟩
  | onFrame bs =>
    refine ⟨?_, rfl⟩
    show (setReadable P _).decoder.Failed
    rw [setReadable_decoder]
    exact hf.insertBuffer P bs
  | decodeOnce =>
    simp only [socketCall, hf.readOnce]
    exact ⟨hf.decoded P, by simp [Out.frame?]⟩
  | onReadable =>
    simp only [socketCall, hf.onReadable]
    exact ⟨hf.decoded P, by simp [Out.frame?]⟩
  | immediate =>
    simp only [socketCall, onImmediate]
    split
    · rw [hf.onReadable]
      exact ⟨hf.decoded P, by simp [Out.frame?]⟩
    · exact ⟨hf, by simp⟩
  | onEoF =>
    have he : decode P r.socket.decoder = (.error, (decode P r.socket.decoder).2) := Prod.ext hf rfl
    simp only [socketCall, onEoF]
    rw [he]
    exact ⟨hf.decoded P, by simp [Out.frame?]⟩

theorem calls_failed (hf : r.socket.decoder.Failed) (calls : List SocketCall) :
    (calls.foldl (socketCall P) r).socket.decoder.Failed ∧
      (calls.foldl (socketCall P) r).out.filterMap (Out.frame? P) = r.out.filterMap (Out.frame? P) := by
  induction calls generalizing r with
  | nil => exact ⟨hf, rfl⟩
  | cons c calls ih =>
    obtain ⟨hc, hout⟩ := socketCall_failed P hf c
    obtain ⟨hrest, houts⟩ := ih hc
    exact ⟨hrest, houts.trans hout⟩

/-- Once `Decode` returns an error it does so after any further calls, and nothing is dispatched any more. -/
theorem error_final (history later : List SocketCall) (hf : (decode P (socketRun P history).socket.decoder).1 = .error) :
    (decode P (socketRun P (history ++ later)).socket.decoder).1 = .error ∧
      (socketRun P (history ++ later)).out.filterMap (Out.frame? P) = (socketRun P history).out.filterMap (Out.frame? P) := by
  have h := calls_failed P (r := socketRun P history) hf later
  rw [socketRun, foldl_append]
  exact h

/-- A message, then a header of an unknown kind, then a message again. -/
def brokenHistory : List SocketCall :=
  [.onFrame (twoBytes.take 25), .immediate, .onFrame (List.replicate 25 0), .onReadable]

theorem brokenHistory_final :
    (socketRun .plain brokenHistory).out.length = 2 ∧
      (decode .plain (socketRun .plain (brokenHistory ++ [.insertBuffer twoBytes, .onReadable])).socket.decoder).1 = .error ∧
      ((socketRun .plain (brokenHistory ++ [.insertBuffer twoBytes, .onReadable])).out.filterMap (Out.frame? .plain)).length = 1 := by
  obtain ⟨herror, hout⟩ := error_final .plain brokenHistory [.insertBuffer twoBytes, .onReadable] (by decide)
  refine ⟨by decide, herror, ?_⟩
  rw [hout]
  decide

end Aworker.Ipc
