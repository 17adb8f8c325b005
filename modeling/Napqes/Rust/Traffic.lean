import Napqes.Misc.Run
import Napqes.Rust.Egress
import Napqes.Rust.OtReceiver

/-!
# Frames through concurrent gateway tasks (`rust/src/bin/ls_gateway.rs:176-426`)

An ingress task draws a sequence number, seals and forwards, one frame after the other; any number
of them share the send counters. `forward_envelope` opens a connection for each envelope, so each
arrives at an egress task of its own, in any order; the egress tasks share the receive counters.
The link hands over each envelope once, and both sides load the same key for every device.
-/

namespace Napqes.Rust

/-- Where an ingress task stands with the frame it is working on. -/
inductive IngressPhase where
  | reading
  | numbered (aad : OtAad) (pdu : List UInt8)
  | sealed (frame : SealedPdu)

/-- A `handle_ingress_modbus` or `handle_ingress_dnp3` task, with the reads still to come. -/
structure IngressTask where
  protocol : ProtocolId
  reads : List (List UInt8)
  phase : IngressPhase

/-- A `handle_egress` task with the one envelope of its connection. -/
structure EgressConn where
  frame : SealedPdu
  status : CallStatus

/-- The tasks and counters of the two gateways and the link between them. `results` logs what
`unwrap_pdu` returned for each envelope, in the order in which that was decided. -/
structure Traffic where
  sendCounters : SequenceCounter
  ingress : List IngressTask
  link : List SealedPdu
  recvCounters : SequenceCounter
  egress : List EgressConn
  results : List (SealedPdu × RustM FrameError (List UInt8))

/-- What can happen next. -/
inductive TrafficAction where
  /-- `run_ingress_listener` accepts a connection. -/
  | connect (protocol : ProtocolId) (reads : List (List UInt8))
  /-- An ingress task reads and parses a frame and calls `next_seq`. -/
  | number (i : Nat)
  /-- It calls `wrap_pdu`. -/
  | wrap (i : Nat)
  /-- It calls `forward_envelope`. -/
  | forward (i : Nat)
  /-- `run_egress_listener` accepts the connection of an envelope. -/
  | arrive (i : Nat)
  /-- An egress task runs `unwrap_pdu` up to `validate_recv`. -/
  | unwrap (i : Nat)
  /-- It calls `validate_recv`, and `unwrap_pdu` returns. -/
  | validate (i : Nat)

namespace Traffic

def init : Traffic where
  sendCounters := .new
  ingress := []
  link := []
  recvCounters := .new
  egress := []
  results := []

/-- Ingress task `i` moves on. -/
def setIngress (s : Traffic) (i : Nat) (task : IngressTask) : Traffic :=
  { s with ingress := s.ingress.set i task }

/-- Egress task `i` moves on. -/
def setStatus (s : Traffic) (i : Nat) (conn : EgressConn) (status : CallStatus) : Traffic :=
  { s with egress := s.egress.set i { conn with status } }

/-- The `unwrap_pdu` of egress task `i` returns. -/
def returns (s : Traffic) (i : Nat) (conn : EgressConn) (counters : SequenceCounter)
    (result : RustM FrameError (List UInt8)) : Traffic :=
  { s.setStatus i conn (.returned result) with
    recvCounters := counters
    results := s.results ++ [(conn.frame, result)] }

section
variable (H : Hmac) (key : NapqesKey)

/-- The next state, if the action can happen. A panic ends a task for good. -/
def step (s : Traffic) : TrafficAction → Option Traffic
  | .connect protocol reads =>
      some { s with ingress := s.ingress ++ [{ protocol, reads, phase := .reading }] }
  | .number i => do
      let task ← s.ingress[i]?
      match task.phase, task.reads with
      | .reading, frame :: reads =>
          if frame = [] then return s.setIngress i { task with reads := [] }
          else
            match ingressPdu task.protocol frame with
            | none => return s.setIngress i { task with reads }
            | some (deviceId, pdu) =>
                let (seq, sendCounters) ←
                  (s.sendCounters.nextSeq task.protocol deviceId).toOption
                let aad : OtAad := { protocol := task.protocol, deviceId, seq }
                return { s.setIngress i { task with reads, phase := .numbered aad pdu } with
                  sendCounters }
      | _, _ => none
  | .wrap i => do
      let task ← s.ingress[i]?
      match task.phase with
      | .numbered aad pdu =>
          match wrapPdu H pdu aad key with
          | .ok envelope =>
              return s.setIngress i { task with phase := .sealed { aad, pdu, envelope } }
          | .error (.err _) => return s.setIngress i { task with phase := .reading }
          | .error (.panic _) => none
      | _ => none
  | .forward i => do
      let task ← s.ingress[i]?
      match task.phase with
      | .sealed frame =>
          return { s.setIngress i { task with phase := .reading } with link := s.link ++ [frame] }
      | _ => none
  | .arrive i => do
      let frame ← s.link[i]?
      return { s with
        link := s.link.eraseIdx i
        egress := s.egress ++ [{ frame, status := .started }] }
  | .unwrap i => do
      let conn ← s.egress[i]?
      match conn.status with
      | .started =>
          match openPdu H (hmacVerify H) conn.frame.envelope key with
          | .ok (aad, pdu) => return s.setStatus i conn (.opened aad pdu)
          | .error e => return s.returns i conn s.recvCounters (.error e)
      | _ => none
  | .validate i => do
      let conn ← s.egress[i]?
      match conn.status with
      | .opened aad pdu =>
          match s.recvCounters.validateRecv aad.protocol aad.deviceId aad.seq with
          | (.ok _, counters) => return s.returns i conn counters (.ok pdu)
          | (.error e, counters) => return s.returns i conn counters (.error e)
      | _ => none

/-- A run of the tasks: any number of them, in any order. -/
def Runs : Traffic → Traffic → Prop :=
  Run (fun s a t => step H key s a = some t) fun _ _ => True

end

end Traffic

end Napqes.Rust
