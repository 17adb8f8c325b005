import Napqes.Misc.Run
import Napqes.Rust.Kem
import Napqes.Rust.OtFrame

/-!
# The key exchange between the gateways (`rust/src/kem_exchange.rs:54-197`)

One `run_initiator_loop` (ingress), one `run_responder_loop` (egress), and the connections between
them. The responder serves one connection at a time; which one it accepts next is up to the
network, and anyone may connect. A connection is what each side has written to it and the other
has not yet read. Once it is cut, what was on the way may be lost and nothing written later
arrives; whoever waits on it sooner or later fails. The pauses of the two loops are not modelled.
-/

namespace Napqes.Rust

/-- `ACK` (`kem_exchange.rs:54`). -/
def ack : UInt8 := 0x01

/-- `recv_framed` (`kem_exchange.rs:58-70`) on a frame that has arrived. -/
def recvFramed (payload : List UInt8) : RustM String (List UInt8) :=
  let len := payload.length
  if payload.length > 64 * 1024 then err s!"KEM frame too large: {len} bytes" else .ok payload

/-- A connection to the responder: the initiator's `n`-th, or someone else's. -/
inductive ConnId where
  | initiator (n : Nat)
  | other (n : Nat)
  deriving DecidableEq

/-- What the responder writes. -/
inductive Down where
  | frame (payload : List UInt8)
  | byte (b : UInt8)
  deriving DecidableEq

/-- A connection, with what is on the way to the client (`down`) and to the responder (`up`). -/
structure Conn where
  accepted : Bool
  isCut : Bool
  down : List Down
  up : List (List UInt8)

namespace Conn

def fresh : Conn := { accepted := false, isCut := false, down := [], up := [] }

/-- The responder writes. -/
def sendDown (c : Conn) (m : Down) : Conn := if c.isCut then c else { c with down := c.down ++ [m] }

/-- The client writes. -/
def sendUp (c : Conn) (frame : List UInt8) : Conn :=
  if c.isCut then c else { c with up := c.up ++ [frame] }

end Conn

/-- Where `run_initiator_loop` stands: before the next `connect`, or in `run_initiator_once`, or
about to insert what that returned. -/
inductive Initiator where
  | resting
  | awaitPk (n : Nat)
  | awaitAck (n : Nat) (key : NapqesKey)
  | install (key : NapqesKey)

/-- Where `run_responder_loop` stands: in `accept`, further on in `run_responder_once`, or about
to insert what that returned. -/
inductive Responder where
  | listening
  | accepted (c : ConnId) (pk sk : List UInt8)
  | awaitCt (c : ConnId) (sk : List UInt8)
  | sendAck (c : ConnId) (key : NapqesKey)
  | install (key : NapqesKey)

/-- The two gateways' stores, the two loops and the connections. `derived` collects the keys
that `run_initiator_once` has derived. -/
structure Exchange where
  ingress : SessionKeyStore
  egress : SessionKeyStore
  initiator : Initiator
  responder : Responder
  conns : ConnId → Conn
  opened : Nat
  derived : List NapqesKey

/-- What can happen next. -/
inductive ExchangeAction where
  /-- The initiator connects. -/
  | connect
  /-- The responder accepts a connection and generates a keypair. -/
  | accept (c : ConnId) (seed : Nat)
  /-- The responder sends its public key. -/
  | sendPk
  /-- The initiator receives it, encapsulates and sends the ciphertext. -/
  | recvPk (coins : Nat)
  /-- Someone else sends a frame. -/
  | sendOther (n : Nat) (frame : List UInt8)
  /-- The responder receives the ciphertext and decapsulates. -/
  | recvCt
  /-- The responder sends the ACK. -/
  | sendAck
  /-- The initiator receives it. -/
  | recvAck
  /-- `store.insert` in `run_responder_loop`. -/
  | insertEgress
  /-- `store.insert` in `run_initiator_loop`. -/
  | insertIngress
  /-- An I/O error ends `run_responder_once`. -/
  | failResponder
  /-- An I/O error ends `run_initiator_once`. -/
  | failInitiator
  /-- A connection is cut; the given numbers of messages still arrive. -/
  | cut (c : ConnId) (down up : Nat)

namespace Exchange

def init : Exchange where
  ingress := .new
  egress := .new
  initiator := .resting
  responder := .listening
  conns _ := .fresh
  opened := 0
  derived := []

def setConn (s : Exchange) (c : ConnId) (conn : Conn) : Exchange :=
  { s with conns := Function.update s.conns c conn }

/-- A connection that waits for `accept`. -/
def Waiting (s : Exchange) : ConnId → Prop
  | .initiator n => n < s.opened ∧ (s.conns (.initiator n)).accepted = false
  | .other n => (s.conns (.other n)).accepted = false

instance (s : Exchange) (c : ConnId) : Decidable (s.Waiting c) := by
  cases c <;> unfold Waiting <;> infer_instance

/-- No exchange is in progress. -/
def Idle (s : Exchange) : Prop := s.initiator = .resting ∧ s.responder = .listening

section
variable (H : Hmac) (hkdf : Hkdf) (frodo : Frodo)

/-- The next state, if the action can happen. -/
def step (s : Exchange) : ExchangeAction → Option Exchange
  | .connect =>
      match s.initiator with
      | .resting => some { s with initiator := .awaitPk s.opened, opened := s.opened + 1 }
      | _ => none
  | .accept c seed =>
      match s.responder with
      | .listening =>
          if s.Waiting c then
            let (pk, sk) := keygen frodo seed
            some { s.setConn c { s.conns c with accepted := true } with
              responder := .accepted c pk sk }
          else none
      | _ => none
  | .sendPk =>
      match s.responder with
      | .accepted c pk sk =>
          some { s.setConn c ((s.conns c).sendDown (.frame pk)) with responder := .awaitCt c sk }
      | _ => none
  | .recvPk coins =>
      match s.initiator with
      | .awaitPk n =>
          let conn := s.conns (.initiator n)
          match conn.down with
          | .frame frame :: rest =>
              let conn := { conn with down := rest }
              match recvFramed frame >>= fun pk => encapsulateV8 H hkdf frodo pk coins with
              | .ok (ct, key) =>
                  some { s.setConn (.initiator n) (conn.sendUp ct) with
                    initiator := .awaitAck n key
                    derived := key :: s.derived }
              | .error (.err _) =>
                  some { s.setConn (.initiator n) conn with initiator := .resting }
              | .error (.panic _) => none
          | _ => none
      | _ => none
  | .sendOther n frame =>
      some (s.setConn (.other n) ((s.conns (.other n)).sendUp frame))
  | .recvCt =>
      match s.responder with
      | .awaitCt c sk =>
          let conn := s.conns c
          match conn.up with
          | frame :: rest =>
              let conn := { conn with up := rest }
              match recvFramed frame >>= fun ct => decapsulateV8 H hkdf frodo ct sk with
              | .ok key => some { s.setConn c conn with responder := .sendAck c key }
              | .error (.err _) => some { s.setConn c conn with responder := .listening }
              | .error (.panic _) => none
          | _ => none
      | _ => none
  | .sendAck =>
      match s.responder with
      | .sendAck c key =>
          some { s.setConn c ((s.conns c).sendDown (.byte ack)) with responder := .install key }
      | _ => none
  | .recvAck =>
      match s.initiator with
      | .awaitAck n key =>
          let conn := s.conns (.initiator n)
          match conn.down with
          | .byte b :: rest =>
              let conn := { conn with down := rest }
              some { s.setConn (.initiator n) conn with
                initiator := if b ≠ ack then .resting else .install key }
          | _ => none
      | _ => none
  | .insertEgress =>
      match s.responder with
      | .install key =>
          some { s with egress := s.egress.insert wildcardDeviceId key, responder := .listening }
      | _ => none
  | .insertIngress =>
      match s.initiator with
      | .install key =>
          some { s with ingress := s.ingress.insert wildcardDeviceId key, initiator := .resting }
      | _ => none
  | .failResponder =>
      match s.responder with
      | .accepted .. | .awaitCt .. | .sendAck .. => some { s with responder := .listening }
      | _ => none
  | .failInitiator =>
      match s.initiator with
      | .awaitPk _ | .awaitAck .. => some { s with initiator := .resting }
      | _ => none
  | .cut c down up =>
      let conn := s.conns c
      some (s.setConn c { conn with isCut := true, down := conn.down.take down,
                                    up := conn.up.take up })

/-- A run of the two loops and the network. -/
def Runs (condition : Exchange → ExchangeAction → Prop) : Exchange → Exchange → Prop :=
  Run (fun s a t => step H hkdf frodo s a = some t) condition

end

end Exchange

end Napqes.Rust
