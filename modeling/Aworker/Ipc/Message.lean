/-
  Aworker.Ipc.Message — what the agent sockets carry (src/proto/rpc.proto,
  src/ipc/ipc_message.h): the enums of the header, the header, and the part of the
  protobuf runtime the sockets call.

  Protobuf itself is not in the repository. `Protobuf` is what the sockets use of it: a
  message knows its generated class (`typeOf`), a class has an empty message (`new`), a
  message serializes, bytes are parsed as a given class, and the five required fixed32
  fields of a header serialize to 25 bytes that parse back. A body may lack a required
  field, and then its bytes do not parse: that a body survives (`RoundTrips`) is a
  property of the body, not a law.

  `Protobuf.plain` is one such runtime, with the header's real wire format; its messages
  are their own serialized fields.
-/

import Mathlib

namespace Aworker.Ipc

abbrev RequestId := UInt32

/-! ## Enums -/

inductive MessageKind where
  | request
  | response
  deriving DecidableEq, Repr

def MessageKind.toWire : MessageKind → UInt32
  | .request => 1
  | .response => 2

def MessageKind.ofWire? (w : UInt32) : Option MessageKind :=
  if w = 1 then some .request else if w = 2 then some .response else none

@[simp] theorem MessageKind.ofWire?_toWire (k : MessageKind) : ofWire? k.toWire = some k := by cases k <;> rfl

inductive RequestKind where
  | nil
  | trigger
  | streamPush
  | streamOpen
  | collectMetrics
  | credentials
  | fetch
  | daprInvoke
  | daprBinding
  | fetchAbort
  | extensionBinding
  | resourceNotification
  | resourcePut
  | inspectorStart
  | inspectorStartSession
  | inspectorEndSession
  | inspectorGetTargets
  | inspectorCommand
  | inspectorEvent
  | inspectorStarted
  | tracingStart
  | tracingStop
  deriving DecidableEq, Repr

def RequestKind.toWire : RequestKind → UInt32
  | .nil => 0
  | .trigger => 1
  | .streamPush => 2
  | .streamOpen => 3
  | .collectMetrics => 4
  | .credentials => 10
  | .fetch => 11
  | .daprInvoke => 12
  | .daprBinding => 13
  | .fetchAbort => 14
  | .extensionBinding => 15
  | .resourceNotification => 21
  | .resourcePut => 22
  | .inspectorStart => 100
  | .inspectorStartSession => 101
  | .inspectorEndSession => 102
  | .inspectorGetTargets => 103
  | .inspectorCommand => 104
  | .inspectorEvent => 105
  | .inspectorStarted => 106
  | .tracingStart => 110
  | .tracingStop => 111

/-- `NOSLATED_REQUEST_TYPES`, in the macro's order. -/
def noslatedRequestTypes : List RequestKind :=
  [.credentials, .streamOpen, .streamPush, .collectMetrics, .fetch, .fetchAbort, .daprInvoke, .daprBinding,
    .extensionBinding, .resourceNotification, .resourcePut, .trigger, .inspectorStart, .inspectorStartSession,
    .inspectorEndSession, .inspectorGetTargets, .inspectorCommand, .inspectorEvent, .inspectorStarted,
    .tracingStart, .tracingStop]

/-- `switch (request_kind) { NOSLATED_REQUEST_TYPES(V) default: }` -/
def RequestKind.ofWire? (w : UInt32) : Option RequestKind := noslatedRequestTypes.find? fun k => k.toWire == w

theorem RequestKind.ofWire?_toWire {k : RequestKind} (h : k ∈ noslatedRequestTypes) : ofWire? k.toWire = some k := by
  revert k; decide

/-- A value no enumerator names is a `CanonicalCode` all the same (`static_cast`). -/
inductive CanonicalCode where
  | ok
  | internalError
  | timeout
  | notImplemented
  | connectionReset
  | clientError
  | cancelled
  | other (w : UInt32) (h : 7 ≤ w.toNat)
  deriving DecidableEq, Repr

def CanonicalCode.toWire : CanonicalCode → UInt32
  | .ok => 0
  | .internalError => 1
  | .timeout => 2
  | .notImplemented => 3
  | .connectionReset => 4
  | .clientError => 5
  | .cancelled => 6
  | .other w _ => w

def CanonicalCode.ofWire (w : UInt32) : CanonicalCode :=
  if h : 7 ≤ w.toNat then .other w h
  else match w.toNat with
    | 0 => .ok
    | 1 => .internalError
    | 2 => .timeout
    | 3 => .notImplemented
    | 4 => .connectionReset
    | 5 => .clientError
    | _ => .cancelled

@[simp] theorem CanonicalCode.ofWire_toWire (c : CanonicalCode) : ofWire c.toWire = c := by
  cases c with
  | other w h => simp [ofWire, toWire, h]
  | _ => rfl

/-! ## Headers and bodies -/

structure MessageHeader where
  messageKind : UInt32
  requestId : RequestId
  requestKind : UInt32
  contentLength : UInt32
  code : UInt32
  deriving DecidableEq, Repr

/-- `NoslatedDecoder::MessageHeaderSize` -/
def messageHeaderSize : Nat := 25

/-- The generated class of a body: `TYPE##RequestMessage`, `TYPE##ResponseMessage` or
    `ErrorResponseMessage`. -/
inductive MessageType where
  | request (k : RequestKind)
  | response (k : RequestKind)
  | errorResponse
  deriving DecidableEq, Repr

structure Protobuf where
  Msg : Type
  typeOf : Msg → MessageType
  /-- `make_unique<T>()` -/
  new : MessageType → Msg
  typeOf_new : ∀ t, typeOf (new t) = t
  serialize : Msg → List UInt8
  /-- `ParseFromArray` on a fresh `T`. -/
  parse : MessageType → List UInt8 → Option Msg
  typeOf_parse : ∀ {t bs m}, parse t bs = some m → typeOf m = t
  serializeHeader : MessageHeader → List UInt8
  parseHeader : List UInt8 → Option MessageHeader
  header_size : ∀ h, (serializeHeader h).length = messageHeaderSize
  header_parse : ∀ h, parseHeader (serializeHeader h) = some h

/-- Parsing inverts serializing on `m`. Protobuf neither writes nor reads messages of
    2 GiB and more. -/
structure Protobuf.RoundTrips (P : Protobuf) (m : P.Msg) : Prop where
  short : (P.serialize m).length < 2 ^ 31
  parses : P.parse (P.typeOf m) (P.serialize m) = some m

/-! ## A runtime -/

def le32 (w : UInt32) : List UInt8 :=
  [UInt8.ofNat w.toNat, UInt8.ofNat (w.toNat / 256), UInt8.ofNat (w.toNat / 65536), UInt8.ofNat (w.toNat / 16777216)]

def ofLe32 (a b c d : UInt8) : UInt32 :=
  UInt32.ofNat (a.toNat + 256 * b.toNat + 65536 * c.toNat + 16777216 * d.toNat)

theorem ofLe32_le32 (w : UInt32) :
    ofLe32 (UInt8.ofNat w.toNat) (UInt8.ofNat (w.toNat / 256)) (UInt8.ofNat (w.toNat / 65536))
      (UInt8.ofNat (w.toNat / 16777216)) = w := by
  have hw := w.toNat_lt
  apply UInt32.toNat_inj.mp
  simp only [ofLe32, UInt8.toNat_ofNat', UInt32.toNat_ofNat']
  omega

/-- One fixed32 field with its tag byte, and the bytes after it. -/
def takeField (tag : UInt8) : List UInt8 → Option (UInt32 × List UInt8)
  | t :: a :: b :: c :: d :: rest => if t = tag then some (ofLe32 a b c d, rest) else none
  | _ => none

theorem takeField_le32 (tag : UInt8) (w : UInt32) (rest : List UInt8) :
    takeField tag (tag :: (le32 w ++ rest)) = some (w, rest) := by
  simp only [takeField, le32, List.cons_append, List.nil_append, if_true, ofLe32_le32]

/-- Fields 1, 2, 3, 5 and 6, each a tag byte (wire type 5) and four bytes. -/
def plainHeader (h : MessageHeader) : List UInt8 :=
  0x0d :: (le32 h.messageKind ++ 0x15 :: (le32 h.requestId ++ 0x1d :: (le32 h.requestKind ++
    0x2d :: (le32 h.contentLength ++ 0x35 :: (le32 h.code ++ [])))))

def parsePlainHeader (bs : List UInt8) : Option MessageHeader := do
  let (messageKind, bs) ← takeField 0x0d bs
  let (requestId, bs) ← takeField 0x15 bs
  let (requestKind, bs) ← takeField 0x1d bs
  let (contentLength, bs) ← takeField 0x2d bs
  let (code, bs) ← takeField 0x35 bs
  if bs = [] then some ⟨messageKind, requestId, requestKind, contentLength, code⟩ else none

theorem parsePlainHeader_plainHeader (h : MessageHeader) : parsePlainHeader (plainHeader h) = some h := by
  simp only [parsePlainHeader, plainHeader, takeField_le32, Option.bind_eq_bind, Option.bind_some, if_true]

def Protobuf.plain : Protobuf where
  Msg := MessageType × List UInt8
  typeOf := Prod.fst
  new t := (t, [])
  typeOf_new _ := rfl
  serialize := Prod.snd
  parse t bs := some (t, bs)
  typeOf_parse h := by cases h; rfl
  serializeHeader := plainHeader
  parseHeader := parsePlainHeader
  header_size _ := rfl
  header_parse := parsePlainHeader_plainHeader

instance : DecidablePred (Protobuf.RoundTrips .plain) := fun m =>
  decidable_of_iff ((Protobuf.plain.serialize m).length < 2 ^ 31) ⟨fun h => ⟨h, rfl⟩, fun h => h.short⟩

end Aworker.Ipc
