import Napqes.Misc.LossyChannel
import Napqes.Rust.Proofs.OtFrame
import Napqes.Rust.Traffic

/-!
# The tunnel over a hostile link (`rust/src/bin/ls_gateway.rs:176-426`)

The tasks of both gateways with nothing assumed about the network between them: what an ingress
task forwards may never arrive, and any bytes may arrive at an egress task, such as copies of old
envelopes, parts of several, or bytes nobody sent. The key stores may change between any two
steps. The tags are ideal, so the tag check depends on what was sealed so far.
-/

namespace Napqes.Rust

/-- The ingress gateway, the egress gateway, and two logs as ghost state: the PDUs in the order
in which they were numbered, and what `wrap_pdu` sealed. -/
structure Tunnel (H : Hmac) where
  ingressKeys : KeyStore
  sendCounters : SequenceCounter
  ingress : List IngressTask
  egress : Egress
  numbered : List (OtAad × List UInt8)
  wraps : List (HonestWrap H)

/-- What is sent and received: a PDU of a device of a protocol. -/
abbrev PduEvent := ChannelEvent DeviceKey (List UInt8)

/-- What an event at the egress shows: the PDU, if `validate_recv` accepts it. -/
def Egress.shown (s : Egress) : EgressEvent → List PduEvent
  | .accept i =>
      match s.tasks[i]? with
      | some { phase := .opened _ aad pdu, .. } => [.received aad.device pdu]
      | _ => []
  | _ => []

namespace Tunnel

variable {H : Hmac}

/-- No connection yet; the receive counters may have been in use before. -/
def init (H : Hmac) (ingressKeys egressKeys : KeyStore)
    (sendCounters recvCounters : SequenceCounter) : Tunnel H where
  ingressKeys
  sendCounters
  ingress := []
  egress := .init egressKeys recvCounters
  numbered := []
  wraps := []

/-- Ingress task `i` moves on. -/
def setIngress (s : Tunnel H) (i : Nat) (task : IngressTask) : Tunnel H :=
  { s with ingress := s.ingress.set i task }

end Tunnel

section
variable (H : Hmac) (verify : List (HonestWrap H) → NapqesKey → TagCheck)

/-- One step of the gateways. -/
inductive TunnelStep : Tunnel H → List PduEvent → Tunnel H → Prop where
  /-- `run_ingress_listener` accepts a connection. -/
  | connect (s : Tunnel H) (protocol : ProtocolId) (reads : List (List UInt8)) :
      TunnelStep s []
        { s with ingress := s.ingress ++ [{ protocol, reads, phase := .reading }] }
  /-- The key store of the ingress changes. -/
  | install (s : Tunnel H) (ingressKeys : KeyStore) : TunnelStep s [] { s with ingressKeys }
  /-- An ingress task reads and parses a frame and calls `next_seq`. -/
  | number (s : Tunnel H) (i : Nat) (task : IngressTask) (frame : List UInt8)
      (reads : List (List UInt8)) (deviceId : UInt64) (pdu : List UInt8) (seq : UInt64)
      (sendCounters : SequenceCounter) :
      s.ingress[i]? = some task → task.phase = .reading → task.reads = frame :: reads →
      frame ≠ [] → ingressPdu task.protocol frame = some (deviceId, pdu) →
      s.sendCounters.nextSeq task.protocol deviceId = .ok (seq, sendCounters) →
      TunnelStep s [.sent (task.protocol, deviceId) pdu]
        { s.setIngress i { task with
            reads, phase := .numbered { protocol := task.protocol, deviceId, seq } pdu } with
          sendCounters
          numbered := s.numbered ++ [({ protocol := task.protocol, deviceId, seq }, pdu)] }
  /-- A frame that does not parse is skipped. -/
  | skip (s : Tunnel H) (i : Nat) (task : IngressTask) (frame : List UInt8)
      (reads : List (List UInt8)) :
      s.ingress[i]? = some task → task.phase = .reading → task.reads = frame :: reads →
      frame ≠ [] → ingressPdu task.protocol frame = none →
      TunnelStep s [] (s.setIngress i { task with reads })
  /-- A read of no bytes ends the connection. -/
  | close (s : Tunnel H) (i : Nat) (task : IngressTask) (reads : List (List UInt8)) :
      s.ingress[i]? = some task → task.phase = .reading → task.reads = [] :: reads →
      TunnelStep s [] (s.setIngress i { task with reads := [] })
  /-- The task loads the key of the device and calls `wrap_pdu`. -/
  | wrap (s : Tunnel H) (i : Nat) (task : IngressTask) (aad : OtAad) (pdu : List UInt8)
      (key : NapqesKey) (envelope : List UInt8) :
      s.ingress[i]? = some task → task.phase = .numbered aad pdu →
      s.ingressKeys aad.deviceId = .ok key →
      (made : wrapPdu H pdu aad key = .ok envelope) →
      TunnelStep s []
        { s.setIngress i { task with phase := .sealed { aad, pdu, envelope } } with
          wraps := s.wraps ++ [{ key, aad, pdu, envelope, made }] }
  /-- There is no key, or `wrap_pdu` fails: the number is lost. -/
  | drop (s : Tunnel H) (i : Nat) (task : IngressTask) (aad : OtAad) (pdu : List UInt8) :
      s.ingress[i]? = some task → task.phase = .numbered aad pdu →
      (∀ key, s.ingressKeys aad.deviceId = .ok key → ∃ e, wrapPdu H pdu aad key = err e) →
      TunnelStep s [] (s.setIngress i { task with phase := .reading })
  /-- `forward_envelope` gives the envelope to the network. -/
  | forward (s : Tunnel H) (i : Nat) (task : IngressTask) (frame : SealedPdu) :
      s.ingress[i]? = some task → task.phase = .sealed frame →
      TunnelStep s [] (s.setIngress i { task with phase := .reading })
  /-- A step at the egress; a new connection there brings any bytes. -/
  | egress (s : Tunnel H) (event : EgressEvent) (t : Egress) :
      EgressStep H (verify s.wraps) event s.egress t →
      TunnelStep s (s.egress.shown event) { s with egress := t }

/-- A run of the gateways with the PDUs it sends and receives. -/
def TunnelRun (s : Tunnel H) (es : List PduEvent) (t : Tunnel H) : Prop :=
  Traced (TunnelStep H verify) s es t

end

end Napqes.Rust
