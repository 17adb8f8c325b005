import Napqes.Rust.Egress
import Napqes.Rust.KemExchange

/-!
# Traffic during a key exchange (`rust/src/bin/ls_gateway.rs`, `rust/src/kem_exchange.rs`)

The two gateways and the envelopes between them while the exchange of `Exchange` replaces the
session keys. The ingress handlers load the key of the ingress store for each frame they seal,
`handle_egress` loads the key of the egress store for each envelope it opens. The link hands over
whole envelopes, each once, those of one device in order.
-/

namespace Napqes.Rust

section
variable (H : Hmac)

/-- A round of the ingress handler of a protocol. -/
def ingressFrame (protocol : ProtocolId) (keyStore : KeyStore) (frame : List UInt8)
    (counters : SequenceCounter) : RustM Empty (Option SealedPdu × SequenceCounter) :=
  match protocol with
  | .modbusTcp => ingressRound H .modbusTcp modbusPdu keyStore frame counters
  | .dnp3 => ingressRound H .dnp3 dnp3Pdu keyStore frame counters

/-- What `handle_egress` does with an envelope (`ls_gateway.rs:310-341`): the PDU, if
`unwrap_pdu` was reached and accepts it. -/
def egressRound (keyStore : KeyStore) (envelope : List UInt8) (counters : SequenceCounter) :
    Option (List UInt8) × SequenceCounter :=
  match peekDeviceId envelope with
  | none => (none, counters)
  | some deviceId =>
      match keyStore deviceId with
      | .error _ => (none, counters)
      | .ok key =>
          match unwrapPdu H (hmacVerify H) envelope key counters with
          | (.ok pdu, counters) => (some pdu, counters)
          | (.error _, counters) => (none, counters)

end

/-- An envelope on the link, with the key it was sealed with as ghost state. -/
structure InFlight where
  frame : SealedPdu
  key : Option NapqesKey

/-- The exchange, the counters of the two gateways, the link, and a log of what the egress did
with each envelope. -/
structure Rekeying where
  exchange : Exchange
  ingressCounters : SequenceCounter
  egressCounters : SequenceCounter
  link : List InFlight
  delivered : List (InFlight × Option (List UInt8))

/-- What can happen next. -/
inductive RekeyingAction where
  /-- A step of the exchange. -/
  | exchange (a : ExchangeAction)
  /-- The ingress handler of a protocol reads a frame. -/
  | ingress (protocol : ProtocolId) (frame : List UInt8)
  /-- The egress handles the envelope at a position of the link. -/
  | egress (i : Nat)

namespace Rekeying

def init : Rekeying where
  exchange := .init
  ingressCounters := .new
  egressCounters := .new
  link := []
  delivered := []

/-- The envelope at a position of the link, if it is the first of its device. -/
def next (s : Rekeying) (i : Nat) : Option InFlight :=
  match s.link[i]? with
  | some e =>
      if ∀ e' ∈ s.link.take i, e'.frame.aad.device ≠ e.frame.aad.device then some e else none
  | none => none

section
variable (H : Hmac) (hkdf : Hkdf) (frodo : Frodo)

/-- The next state, if the action can happen. A step of the ingress stands where its handler loads
the key: from there on the envelope is in flight, also while the handler still seals and writes
it. -/
def step (s : Rekeying) : RekeyingAction → Option Rekeying
  | .exchange a => (Exchange.step H hkdf frodo s.exchange a).map fun exchange => { s with exchange }
  | .ingress protocol frame =>
      let keyStore := s.exchange.ingress.load
      match ingressFrame H protocol keyStore frame s.ingressCounters with
      | .error _ => none
      | .ok (none, ingressCounters) => some { s with ingressCounters }
      | .ok (some frame, ingressCounters) =>
          let key := (keyStore frame.aad.deviceId).toOption
          some { s with ingressCounters, link := s.link ++ [{ frame, key }] }
  | .egress i =>
      match s.next i with
      | none => none
      | some e =>
          let (result, egressCounters) :=
            egressRound H s.exchange.egress.load e.frame.envelope s.egressCounters
          some { s with
            egressCounters
            link := s.link.eraseIdx i
            delivered := s.delivered ++ [(e, result)] }

/-- A run of the gateways and the exchange. -/
def Runs (condition : Rekeying → RekeyingAction → Prop) : Rekeying → Rekeying → Prop :=
  Run (fun s a t => step H hkdf frodo s a = some t) condition

end

/-- The egress has accepted every envelope it was handed. -/
def Accepted (s : Rekeying) : Prop :=
  ∀ d ∈ s.delivered, d.2 = some d.1.frame.pdu

end Rekeying

end Napqes.Rust
