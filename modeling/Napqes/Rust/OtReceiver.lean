import Napqes.Rust.OtFrame

/-!
# Concurrent `unwrap_pdu` calls on one `SequenceCounter`

Any number of callers run `unwrap_pdu` on shared counters. What a call does before
`validate_recv` touches nothing shared, so it is one step of that call alone; `validate_recv`
runs under the lock and is one step on the counters. Steps of different calls interleave
freely. `accepted` is a ghost log: the calls that returned `Ok`, in the order in which their
`validate_recv` succeeded.
-/

namespace Napqes.Rust

/-- Where a call stands. -/
inductive CallStatus where
  | started
  | opened (aad : OtAad) (pdu : List UInt8)
  | returned (result : RustM FrameError (List UInt8))

/-- A call `unwrap_pdu(buf, key, &counters)`. -/
structure UnwrapCall where
  buf : List UInt8
  key : NapqesKey
  status : CallStatus

/-- An acceptance: the envelope's header fields, the key, and the PDU handed out. -/
structure Acceptance where
  aad : OtAad
  key : NapqesKey
  pdu : List UInt8

/-- The shared counters, all calls made so far, and the ghost log. -/
structure Receiver where
  counters : SequenceCounter
  calls : List UnwrapCall
  accepted : List Acceptance

namespace Receiver

/-- No call yet; the counters may have been in use before. -/
def init (counters : SequenceCounter) : Receiver := { counters, calls := [], accepted := [] }

/-- Call `i` moves to another status. -/
def setStatus (s : Receiver) (i : Nat) (call : UnwrapCall) (status : CallStatus) : Receiver :=
  { s with calls := s.calls.set i { call with status } }

end Receiver

section
variable (H : Hmac) (verify : NapqesKey → TagCheck)

/-- One step of call `i`. Each key has its own MAC, so the tag check may depend on it. -/
inductive ReceiverStep : Nat → Receiver → Receiver → Prop where
  /-- A caller calls `unwrap_pdu`; the new call gets the next number. -/
  | call (s : Receiver) (buf : List UInt8) (key : NapqesKey) :
      ReceiverStep s.calls.length s
        { s with calls := s.calls ++ [{ buf, key, status := .started }] }
  /-- The envelope parses and authenticates. -/
  | opened (s : Receiver) (i : Nat) (c : UnwrapCall) (aad : OtAad) (pdu : List UInt8) :
      s.calls[i]? = some c → c.status = .started →
      openPdu H (verify c.key) c.buf c.key = .ok (aad, pdu) →
      ReceiverStep i s (s.setStatus i c (.opened aad pdu))
  /-- The envelope does not parse or does not authenticate: the call returns at once. -/
  | openFailed (s : Receiver) (i : Nat) (c : UnwrapCall) (e : Fault FrameError) :
      s.calls[i]? = some c → c.status = .started →
      openPdu H (verify c.key) c.buf c.key = .error e →
      ReceiverStep i s (s.setStatus i c (.returned (.error e)))
  /-- `validate_recv` succeeds and the call returns the PDU. -/
  | accepted (s : Receiver) (i : Nat) (c : UnwrapCall) (aad : OtAad) (pdu : List UInt8)
      (counters : SequenceCounter) :
      s.calls[i]? = some c → c.status = .opened aad pdu →
      s.counters.validateRecv aad.protocol aad.deviceId aad.seq = (.ok ⟨⟩, counters) →
      ReceiverStep i s
        { s.setStatus i c (.returned (.ok pdu)) with
          counters
          accepted := s.accepted ++ [{ aad, key := c.key, pdu }] }
  /-- `validate_recv` refuses the number and the call returns its error. -/
  | refused (s : Receiver) (i : Nat) (c : UnwrapCall) (aad : OtAad) (pdu : List UInt8)
      (counters : SequenceCounter) (e : Fault FrameError) :
      s.calls[i]? = some c → c.status = .opened aad pdu →
      s.counters.validateRecv aad.protocol aad.deviceId aad.seq = (.error e, counters) →
      ReceiverStep i s { s.setStatus i c (.returned (.error e)) with counters }

/-- A finite run: steps of any calls in any order. -/
def ReceiverRun (s t : Receiver) : Prop :=
  Relation.ReflTransGen (fun a b => ∃ i, ReceiverStep H verify i a b) s t

end

end Napqes.Rust
