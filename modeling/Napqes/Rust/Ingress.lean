import Napqes.Rust.OtFrame
import Napqes.Rust.Protocols

/-!
# The ingress of the gateway (`rust/src/bin/ls_gateway.rs:178-270`)

A handler serves one connection: each read of at most 4096 bytes is parsed as one frame, and
the PDU of a frame is numbered, sealed and forwarded. `handle_ingress_modbus` and
`handle_ingress_dnp3` differ in the extractor, in the header field that names the device and in
the protocol. A connection is the list of byte strings its reads return before the end of the
stream. Log lines and connection errors are not modelled.
-/

namespace Napqes.Rust

/-- A PDU that was sealed, with the envelope handed to `forward_envelope`. -/
structure SealedPdu where
  aad : OtAad
  pdu : List UInt8
  envelope : List UInt8
  deriving DecidableEq, Repr

section
variable {ε : Type} (H : Hmac) (protocol : ProtocolId)
  (extract : List UInt8 → RustM ε (UInt64 × List UInt8)) (keyStore : KeyStore)

/-- One round of a handler on the bytes `frame` of one read (`ls_gateway.rs:191-221`): what it
seals, if anything. A panic ends the task. -/
def ingressRound (frame : List UInt8) (counters : SequenceCounter) :
    RustM Empty (Option SealedPdu × SequenceCounter) :=
  match extract frame with
  | .error (.panic msg) => panics msg
  | .error (.err _) => .ok (none, counters)
  | .ok (deviceId, pdu) => do
      let (seq, counters) ← counters.nextSeq protocol deviceId
      let aad : OtAad := { protocol, deviceId, seq }
      match keyStore deviceId with
      | .error _ => return (none, counters)
      | .ok key =>
          match wrapPdu H pdu aad key with
          | .error (.panic msg) => panics msg
          | .error (.err _) => return (none, counters)
          | .ok envelope => return (some { aad, pdu, envelope }, counters)

/-- The loop of a handler (`ls_gateway.rs:183-222`): what it seals, in order, and the counters
at the end of the stream. A read of no bytes ends it. -/
def handleIngress : List (List UInt8) → SequenceCounter →
    List SealedPdu × RustM Empty SequenceCounter
  | [], counters => ([], .ok counters)
  | frame :: reads, counters =>
      if frame = [] then ([], .ok counters)
      else
        match ingressRound H protocol extract keyStore frame counters with
        | .error e => ([], .error e)
        | .ok (out, counters) =>
            let (rest, ended) := handleIngress reads counters
            (out.toList ++ rest, ended)

end

/-- Device and PDU as `handle_ingress_modbus` takes them from a frame (`ls_gateway.rs:192-198`). -/
def modbusPdu (frame : List UInt8) : RustM Modbus.ModbusError (UInt64 × List UInt8) := do
  let (hdr, pdu) ← Modbus.extractPdu frame
  return (hdr.unitId.toUInt64, pdu)

/-- Device and payload as `handle_ingress_dnp3` takes them from a frame
(`ls_gateway.rs:239-245`). -/
def dnp3Pdu (frame : List UInt8) : RustM Dnp3.DnpError (UInt64 × List UInt8) := do
  let (hdr, payload) ← Dnp3.extractPayload frame
  return (hdr.source.toUInt64, payload)

section
variable (H : Hmac) (keyStore : KeyStore)

/-- `handle_ingress_modbus` (`ls_gateway.rs:178-223`). -/
def handleIngressModbus := handleIngress H .modbusTcp modbusPdu keyStore

/-- `handle_ingress_dnp3` (`ls_gateway.rs:225-270`). -/
def handleIngressDnp3 := handleIngress H .dnp3 dnp3Pdu keyStore

end

end Napqes.Rust
