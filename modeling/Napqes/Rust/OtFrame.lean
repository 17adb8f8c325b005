import Napqes.Rust.Block

/-!
# OT framing (`rust/src/ot_frame.rs:44-395`)

A PDU is sealed with the v8 block format; protocol, device and sequence number travel in clear
in the envelope header and are bound as associated data. The receiver keeps the last sequence
number it accepted for each protocol and device. A `HashMap` is a function to `Option`, and a
method on `&self` that locks a map returns the new counters next to its result.
-/

namespace Napqes.Rust

/-- `ProtocolId` (`ot_frame.rs:48-51`). -/
inductive ProtocolId where
  | modbusTcp
  | dnp3
  deriving DecidableEq, Repr

/-- `protocol as u8`. -/
def ProtocolId.toU8 : ProtocolId → UInt8
  | .modbusTcp => 0x01
  | .dnp3 => 0x02

/-- `ProtocolId::from_u8` (`ot_frame.rs:54-60`). -/
def ProtocolId.fromU8 (v : UInt8) : Option ProtocolId :=
  if v = 0x01 then some .modbusTcp else if v = 0x02 then some .dnp3 else none

/-- `OtAad` (`ot_frame.rs:76-80`). -/
structure OtAad where
  protocol : ProtocolId
  deviceId : UInt64
  seq : UInt64
  deriving DecidableEq, Repr

/-- `OtAad::to_bytes` (`ot_frame.rs:83-89`). -/
def OtAad.toBytes (aad : OtAad) : List UInt8 :=
  aad.protocol.toU8 :: (beBytes 8 aad.deviceId.toNat ++ beBytes 8 aad.seq.toNat)

def envelopeMagic : List UInt8 := [0x4E, 0x51]
def envelopeHeaderSize : Nat := 23

/-- `FrameError` (`ot_frame.rs:100-117`). -/
inductive FrameError where
  | authenticationFailed (deviceId : UInt64) (protocol : ProtocolId) (seq : UInt64)
  | replayDetected (deviceId : UInt64) (protocol : ProtocolId) (seq lastSeen : UInt64)
  | malformedEnvelope (msg : String)
  | cryptoError (msg : String)
  deriving DecidableEq, Repr

/-- `DeviceKey` (`ot_frame.rs:135`). -/
abbrev DeviceKey := ProtocolId × UInt64

/-- `OtAad`'s protocol and device, the key of the counters. -/
def OtAad.device (aad : OtAad) : DeviceKey := (aad.protocol, aad.deviceId)

/-- `SequenceCounter` (`ot_frame.rs:141-144`). -/
structure SequenceCounter where
  sendState : DeviceKey → Option UInt64
  recvState : DeviceKey → Option UInt64

namespace SequenceCounter

/-- `SequenceCounter::new` (`ot_frame.rs:147-152`). -/
def new : SequenceCounter where
  sendState _ := none
  recvState _ := none

/-- `SequenceCounter::next_seq` (`ot_frame.rs:155-161`); the increment panics on overflow. -/
def nextSeq (self : SequenceCounter) (protocol : ProtocolId) (deviceId : UInt64) :
    RustM Empty (UInt64 × SequenceCounter) :=
  let key := (protocol, deviceId)
  let seq := (self.sendState key).getD 0
  if seq.toNat + 1 < 2 ^ 64 then
    .ok (seq + 1, { self with sendState := Function.update self.sendState key (some (seq + 1)) })
  else panics "attempt to add with overflow"

/-- `SequenceCounter::validate_recv` (`ot_frame.rs:165-184`). `entry(key).or_insert(0)` leaves
an entry behind even when the number is refused. -/
def validateRecv (self : SequenceCounter) (protocol : ProtocolId) (deviceId seq : UInt64) :
    RustM FrameError PUnit × SequenceCounter :=
  let key := (protocol, deviceId)
  let last := (self.recvState key).getD 0
  if seq ≤ last then
    (err (.replayDetected deviceId protocol seq last),
      { self with recvState := Function.update self.recvState key (some last) })
  else (.ok ⟨⟩, { self with recvState := Function.update self.recvState key (some seq) })

/-- The last sequence number seen from a device, 0 when there is no entry. -/
def lastSeen (self : SequenceCounter) (device : DeviceKey) : UInt64 :=
  (self.recvState device).getD 0

end SequenceCounter

/-! ## Key stores -/

/-- The trait `KeyStore` (`ot_frame.rs:197-199`): a store is what `load` answers. -/
abbrev KeyStore := UInt64 → Except String NapqesKey

/-- `WILDCARD_DEVICE_ID` (`ot_frame.rs:281`). -/
def wildcardDeviceId : UInt64 := 0xFFFFFFFFFFFFFFFF

/-- `SessionKeyStore` (`ot_frame.rs:276-278`). -/
structure SessionKeyStore where
  inner : UInt64 → Option NapqesKey

namespace SessionKeyStore

/-- `SessionKeyStore::new` (`ot_frame.rs:284-286`). -/
def new : SessionKeyStore := ⟨fun _ => none⟩

/-- `SessionKeyStore::insert` (`ot_frame.rs:292-294`). -/
def insert (self : SessionKeyStore) (deviceId : UInt64) (key : NapqesKey) : SessionKeyStore :=
  ⟨Function.update self.inner deviceId (some key)⟩

/-- `SessionKeyStore::load` (`ot_frame.rs:303-313`). -/
def load (self : SessionKeyStore) : KeyStore := fun deviceId =>
  match self.inner deviceId with
  | some k => .ok k
  | none =>
      match self.inner wildcardDeviceId with
      | some k => .ok k
      | none =>
          .error s!"no session key for device_id {deviceId} (KEM exchange not yet completed?)"

end SessionKeyStore

/-! ## Envelopes -/

section
variable (H : Hmac)

/-- `pdu.iter().map(|&b| b as char).collect()`. -/
def latin1 (pdu : List UInt8) : Str := pdu.map Char.ofUInt8

/-- `wrap_pdu` (`ot_frame.rs:328-342`). -/
def wrapPdu (pdu : List UInt8) (aad : OtAad) (key : NapqesKey) :
    RustM FrameError (List UInt8) := do
  let napqesBlob ← mapErr .cryptoError (encryptBytesV8Key H (latin1 pdu) key aad.toBytes)
  return envelopeMagic ++ ([aad.protocol.toU8] ++ (beBytes 8 aad.deviceId.toNat ++
    (beBytes 8 aad.seq.toNat ++ (beBytes 4 napqesBlob.length ++ napqesBlob))))

end

/-- `parse_envelope_header` (`ot_frame.rs:347-370`): protocol, device, sequence number, start
and length of the blob. -/
def parseEnvelopeHeader (buf : List UInt8) :
    RustM FrameError (ProtocolId × UInt64 × UInt64 × Nat × Nat) :=
  let len := buf.length
  if buf.length < envelopeHeaderSize then
    err (.malformedEnvelope s!"buffer too short: {len} < {envelopeHeaderSize}")
  else if buf.take 2 ≠ envelopeMagic then
    let first := hex02 (buf.getD 0 0)
    let second := hex02 (buf.getD 1 0)
    err (.malformedEnvelope s!"bad magic: {first}{second}")
  else
    match ProtocolId.fromU8 (buf.getD 2 0) with
    | none =>
        let id := hex02 (buf.getD 2 0)
        err (.malformedEnvelope s!"unknown protocol_id 0x{id}")
    | some protocol =>
        let deviceId := UInt64.ofNat (beNat ((buf.drop 3).take 8))
        let seq := UInt64.ofNat (beNat ((buf.drop 11).take 8))
        let blobLen := beNat ((buf.drop 19).take 4)
        if buf.length < envelopeHeaderSize + blobLen then
          let have_ := buf.length - envelopeHeaderSize
          err (.malformedEnvelope s!"truncated blob: have {have_} want {blobLen}")
        else .ok (protocol, deviceId, seq, envelopeHeaderSize, blobLen)

/-- `latin1.chars().map(|c| u8::try_from(c as u32) ...).collect()`. -/
def collectBytes (e : FrameError) : Str → RustM FrameError (List UInt8)
  | [] => .ok []
  | c :: cs =>
      if c.toNat < 256 then do
        let rest ← collectBytes e cs
        return UInt8.ofNat c.toNat :: rest
      else err e

section
variable (H : Hmac) (verify : TagCheck)

/-- `unwrap_pdu` up to the call of `validate_recv` (`ot_frame.rs:380-392`): it reads no shared
state. -/
def openPdu (buf : List UInt8) (key : NapqesKey) : RustM FrameError (OtAad × List UInt8) := do
  let (protocol, deviceId, seq, blobStart, blobLen) ← parseEnvelopeHeader buf
  let napqesBlob := (buf.drop blobStart).take blobLen
  let aad : OtAad := { protocol, deviceId, seq }
  let authFailed := FrameError.authenticationFailed deviceId protocol seq
  let latin1 ← mapErr (fun _ => authFailed) (decryptBytesV8Key H verify napqesBlob key aad.toBytes)
  let pdu ← collectBytes authFailed latin1
  return (aad, pdu)

/-- `unwrap_pdu` (`ot_frame.rs:375-395`). -/
def unwrapPdu (buf : List UInt8) (key : NapqesKey) (counters : SequenceCounter) :
    RustM FrameError (List UInt8) × SequenceCounter :=
  match openPdu H verify buf key with
  | .error e => (.error e, counters)
  | .ok (aad, pdu) =>
      match counters.validateRecv aad.protocol aad.deviceId aad.seq with
      | (.error e, counters) => (.error e, counters)
      | (.ok _, counters) => (.ok pdu, counters)

end

end Napqes.Rust
