import Mathlib.Logic.Relation
import Napqes.Rust.Gateway
import Napqes.Rust.Ingress

/-!
# The egress of the gateway (`rust/src/bin/ls_gateway.rs:272-385`)

What `handle_egress` does with the envelopes its reader extracts, and the tasks of the two
listeners at work on one key store and one `SequenceCounter`. A task loads the key, opens the
envelope, has its number checked and forwards the frame; only the check touches the shared
counters, so these are its steps, and steps of different tasks interleave freely. The key store
may change between any two steps.
-/

namespace Napqes.Rust

/-- `reassemble_modbus` (`ls_gateway.rs:370-377`). -/
def reassembleModbus (pdu : List UInt8) : List UInt8 :=
  let hdr : Modbus.MbapHeader :=
    { transactionId := 0
      length := UInt16.ofNat pdu.length
      unitId := if pdu.isEmpty then 0 else pdu.headD 0 }
  Modbus.reconstruct hdr pdu

/-- The frame a task of a listener forwards for an accepted PDU (`ls_gateway.rs:343-346`). -/
def egressFrame (protocol : ProtocolId) (pdu : List UInt8) : List UInt8 :=
  match protocol with
  | .modbusTcp => reassembleModbus pdu
  | .dnp3 => pdu

/-! ## One frame through both gateways -/

/-- Device and PDU as the ingress of a protocol takes them from a frame. -/
def ingressPdu (protocol : ProtocolId) (frame : List UInt8) : Option (UInt64 × List UInt8) :=
  match protocol with
  | .modbusTcp => (modbusPdu frame).toOption
  | .dnp3 => (dnp3Pdu frame).toOption

/-- What the protected device receives for a frame: extraction, `wrap_pdu` with the number `seq`,
`unwrap_pdu` on the other side, reassembly and `forward_envelope`. -/
def transport (H : Hmac) (protocol : ProtocolId) (frame : List UInt8) (seq : UInt64)
    (key : NapqesKey) (counters : SequenceCounter) : Option (List UInt8) := do
  let (deviceId, pdu) ← ingressPdu protocol frame
  let envelope ← (wrapPdu H pdu { protocol, deviceId, seq } key).toOption
  let pdu ← (unwrapPdu H (hmacVerify H) envelope key counters).1.toOption
  return forwardEnvelope (egressFrame protocol pdu)

/-! ## Tasks -/

/-- Where a task stands with the envelope it is working on; once the envelope is open, its key
and header fields are kept as ghost state. -/
inductive EgressPhase where
  | reading
  | loaded (buf : List UInt8) (key : NapqesKey)
  | opened (key : NapqesKey) (aad : OtAad) (pdu : List UInt8)
  | accepted (key : NapqesKey) (aad : OtAad) (pdu : List UInt8)

/-- A `handle_egress` task: its listener's protocol and the envelopes its reader still has to
hand on. -/
structure EgressTask where
  protocol : ProtocolId
  incoming : List (List UInt8)
  phase : EgressPhase

/-- A frame that was written to the protected device. -/
structure Forwarded where
  protocol : ProtocolId
  pdu : List UInt8
  bytes : List UInt8

/-- The shared state, the tasks, and a log of what they forwarded. -/
structure Egress where
  keyStore : KeyStore
  counters : SequenceCounter
  tasks : List EgressTask
  forwarded : List Forwarded

namespace Egress

/-- No connection yet. -/
def init (keyStore : KeyStore) (counters : SequenceCounter) : Egress :=
  { keyStore, counters, tasks := [], forwarded := [] }

/-- Task `i` moves on. -/
def setTask (s : Egress) (i : Nat) (task : EgressTask) : Egress :=
  { s with tasks := s.tasks.set i task }

end Egress

/-- What happens in a step. -/
inductive EgressEvent where
  | connect (protocol : ProtocolId) (stream : Segments)
  | install (keyStore : KeyStore)
  | load (i : Nat) (buf : List UInt8)
  | skip (i : Nat)
  | opened (i : Nat)
  | openFailed (i : Nat)
  | accept (i : Nat)
  | refuse (i : Nat)
  | forward (i : Nat)

section
variable (H : Hmac) (verify : NapqesKey → TagCheck)

/-- One step of the system. -/
inductive EgressStep : EgressEvent → Egress → Egress → Prop where
  /-- `run_egress_listener` accepts a connection and spawns a task for it. -/
  | connect (s : Egress) (protocol : ProtocolId) (stream : Segments) :
      EgressStep (.connect protocol stream) s { s with
        tasks := s.tasks ++
          [{ protocol, incoming := (egressLoop stream).1, phase := .reading }] }
  /-- The key store changes, as a re-keying changes it. -/
  | install (s : Egress) (keyStore : KeyStore) :
      EgressStep (.install keyStore) s { s with keyStore }
  /-- The task reads an envelope and loads the key of its device. -/
  | load (s : Egress) (i : Nat) (task : EgressTask) (buf : List UInt8)
      (rest : List (List UInt8)) (deviceId : UInt64) (key : NapqesKey) :
      s.tasks[i]? = some task → task.phase = .reading → task.incoming = buf :: rest →
      peekDeviceId buf = some deviceId → s.keyStore deviceId = .ok key →
      EgressStep (.load i buf) s
        (s.setTask i { task with incoming := rest, phase := .loaded buf key })
  /-- The envelope is malformed or its device has no key: the task goes on to the next. -/
  | skip (s : Egress) (i : Nat) (task : EgressTask) (buf : List UInt8)
      (rest : List (List UInt8)) :
      s.tasks[i]? = some task → task.phase = .reading → task.incoming = buf :: rest →
      (∀ deviceId, peekDeviceId buf = some deviceId → ∃ e, s.keyStore deviceId = .error e) →
      EgressStep (.skip i) s (s.setTask i { task with incoming := rest })
  /-- `unwrap_pdu` up to `validate_recv`: the envelope opens. -/
  | opened (s : Egress) (i : Nat) (task : EgressTask) (buf : List UInt8) (key : NapqesKey)
      (aad : OtAad) (pdu : List UInt8) :
      s.tasks[i]? = some task → task.phase = .loaded buf key →
      openPdu H (verify key) buf key = .ok (aad, pdu) →
      EgressStep (.opened i) s (s.setTask i { task with phase := .opened key aad pdu })
  /-- `unwrap_pdu` up to `validate_recv`: the envelope does not open and is dropped. -/
  | openFailed (s : Egress) (i : Nat) (task : EgressTask) (buf : List UInt8) (key : NapqesKey)
      (e : FrameError) :
      s.tasks[i]? = some task → task.phase = .loaded buf key →
      openPdu H (verify key) buf key = err e →
      EgressStep (.openFailed i) s (s.setTask i { task with phase := .reading })
  /-- `validate_recv` succeeds and `unwrap_pdu` returns the PDU. -/
  | accept (s : Egress) (i : Nat) (task : EgressTask) (key : NapqesKey) (aad : OtAad)
      (pdu : List UInt8) (counters : SequenceCounter) :
      s.tasks[i]? = some task → task.phase = .opened key aad pdu →
      s.counters.validateRecv aad.protocol aad.deviceId aad.seq = (.ok ⟨⟩, counters) →
      EgressStep (.accept i) s
        { s.setTask i { task with phase := .accepted key aad pdu } with counters }
  /-- `validate_recv` refuses the number and the PDU is dropped. -/
  | refuse (s : Egress) (i : Nat) (task : EgressTask) (key : NapqesKey) (aad : OtAad)
      (pdu : List UInt8) (counters : SequenceCounter) (e : FrameError) :
      s.tasks[i]? = some task → task.phase = .opened key aad pdu →
      s.counters.validateRecv aad.protocol aad.deviceId aad.seq = (err e, counters) →
      EgressStep (.refuse i) s { s.setTask i { task with phase := .reading } with counters }
  /-- The task writes the frame to the protected device. -/
  | forward (s : Egress) (i : Nat) (task : EgressTask) (key : NapqesKey) (aad : OtAad)
      (pdu : List UInt8) :
      s.tasks[i]? = some task → task.phase = .accepted key aad pdu →
      EgressStep (.forward i) s { s.setTask i { task with phase := .reading } with
        forwarded := s.forwarded ++
          [{ protocol := task.protocol
             pdu
             bytes := forwardEnvelope (egressFrame task.protocol pdu) }] }

/-- A finite run whose every step satisfies a condition on the state before it and on what
happens in it. -/
def EgressRun (condition : Egress → EgressEvent → Prop) (s t : Egress) : Prop :=
  Relation.ReflTransGen (fun a b => ∃ event, EgressStep H verify event a b ∧ condition a event) s t

end

end Napqes.Rust
