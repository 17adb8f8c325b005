import Napqes.Rust.Egress
import Napqes.Rust.Proofs.Gateway
import Napqes.Rust.Proofs.OtRoundTrip

/-!
# Protocol binding at the egress

The protocol of an envelope is authenticated and selects the replay window, but what a task
forwards is built for the protocol of its listener. What a task forwards was sealed for its
protocol as long as no envelope that was sealed for the other one reaches its listener; a task
that does receive one forwards it.
-/

namespace Napqes.Rust

variable {H : Hmac} {verify : NapqesKey → TagCheck} {wraps : List (HonestWrap H)}

/-- No envelope that was sealed for another protocol is taken up by a task: a condition on what
arrives at a listener. -/
def RoutedByProtocol (wraps : List (HonestWrap H)) (s : Egress) : EgressEvent → Prop
  | .load i buf => ∀ task, s.tasks[i]? = some task →
      ∀ w ∈ wraps, w.envelope <+: buf → w.aad.protocol = task.protocol
  | _ => True

/-! ## The invariant -/

/-- What holds of a task of a listener in each phase. -/
def PhaseBound (wraps : List (HonestWrap H)) (protocol : ProtocolId) : EgressPhase → Prop
  | .reading => True
  | .loaded buf _ => ∀ w ∈ wraps, w.envelope <+: buf → w.aad.protocol = protocol
  | .opened _ _ pdu => ∃ w ∈ wraps, w.pdu = pdu ∧ w.aad.protocol = protocol
  | .accepted _ _ pdu => ∃ w ∈ wraps, w.pdu = pdu ∧ w.aad.protocol = protocol

/-- Every task works on, and has forwarded, only what was sealed for its protocol. -/
structure ProtocolBound (wraps : List (HonestWrap H)) (s : Egress) : Prop where
  tasks : ∀ task ∈ s.tasks, PhaseBound wraps task.protocol task.phase
  forwarded : ∀ f ∈ s.forwarded, ∃ w ∈ wraps, w.pdu = f.pdu ∧ w.aad.protocol = f.protocol

theorem ProtocolBound.init (keyStore : KeyStore) (counters : SequenceCounter) :
    ProtocolBound wraps (Egress.init keyStore counters) where
  tasks _ h := by cases h
  forwarded _ h := by cases h

/-- A task that moves to another phase keeps the tasks bound, if its new phase is. -/
theorem ProtocolBound.tasks_setTask {s : Egress} {i : Nat} {task : EgressTask}
    (h : ProtocolBound wraps s) (hnew : PhaseBound wraps task.protocol task.phase) :
    ∀ t ∈ (s.setTask i task).tasks, PhaseBound wraps t.protocol t.phase := by
  intro t ht
  rcases List.mem_or_eq_of_mem_set ht with ht | rfl
  · exact h.tasks t ht
  · exact hnew

/-- Every step in which the arriving envelope is routed by its protocol keeps the invariant. -/
theorem ProtocolBound.step {s t : Egress} {event : EgressEvent}
    (hmac : IdealBlockMac H wraps verify) (h : ProtocolBound wraps s)
    (hstep : EgressStep H verify event s t) (hrouted : RoutedByProtocol wraps s event) :
    ProtocolBound wraps t := by
  cases hstep with
  | connect _ protocol stream =>
      refine { h with tasks := ?_ }
      intro task htask
      rcases List.mem_append.mp htask with htask | htask
      · exact h.tasks task htask
      · rw [List.mem_singleton.mp htask]
        trivial
  | install => exact { h with }
  | load _ i task buf rest deviceId key hget hphase hnext hdevice hkey =>
      exact { h with tasks := h.tasks_setTask (hrouted task hget) }
  | skip _ i task buf rest hget hphase hnext hnokey =>
      refine { h with tasks := h.tasks_setTask ?_ }
      rw [hphase]
      trivial
  | opened _ i task buf key aad pdu hget hphase hopen =>
      refine { h with tasks := h.tasks_setTask ?_ }
      obtain ⟨w, hw, -, -, hpdu, henvelope⟩ := sealed_of_openPdu hmac hopen
      have hbound := h.tasks task (List.mem_of_getElem? hget)
      rw [hphase] at hbound
      exact ⟨w, hw, hpdu, hbound w hw henvelope⟩
  | openFailed _ i task buf key e hget hphase hopen =>
      exact { h with tasks := h.tasks_setTask trivial }
  | accept _ i task key aad pdu counters hget hphase hvalid =>
      refine { h with tasks := h.tasks_setTask ?_ }
      have hbound := h.tasks task (List.mem_of_getElem? hget)
      rw [hphase] at hbound
      exact hbound
  | refuse _ i task key aad pdu counters e hget hphase hvalid =>
      exact { h with tasks := h.tasks_setTask trivial }
  | forward _ i task key aad pdu hget hphase =>
      refine ⟨h.tasks_setTask trivial, ?_⟩
      intro f hf
      rcases List.mem_append.mp hf with hf | hf
      · exact h.forwarded f hf
      · have hbound := h.tasks task (List.mem_of_getElem? hget)
        rw [hphase] at hbound
        rw [List.mem_singleton.mp hf]
        exact hbound

theorem ProtocolBound.run {s t : Egress} (hmac : IdealBlockMac H wraps verify)
    (h : ProtocolBound wraps s) (hrun : EgressRun H verify (RoutedByProtocol wraps) s t) :
    ProtocolBound wraps t := by
  induction hrun with
  | refl => exact h
  | tail _ hstep ih =>
      obtain ⟨event, hstep, hrouted⟩ := hstep
      exact ih.step hmac hstep hrouted

/-! ## A delivery -/

/-- `handle_egress` looks at the same device as `unwrap_pdu`. -/
theorem peekDeviceId_of_parseEnvelopeHeader {buf : List UInt8} {protocol : ProtocolId}
    {deviceId seq : UInt64} {start len : Nat}
    (h : parseEnvelopeHeader buf = .ok (protocol, deviceId, seq, start, len)) :
    peekDeviceId buf = some deviceId := by
  unfold parseEnvelopeHeader at h
  simp only at h
  unfold peekDeviceId
  split at h
  case isTrue => cases h
  case isFalse hsize =>
    rw [if_neg hsize]
    split at h
    case isTrue => cases h
    case isFalse hmagic =>
      rw [if_neg hmagic]
      split at h
      case h_1 => cases h
      case h_2 =>
        split at h
        case isTrue => cases h
        case isFalse =>
          simp only [Except.ok.injEq, Prod.mk.injEq] at h
          exact congrArg some h.2.1

theorem HonestWrap.exists_blob (w : HonestWrap H) :
    ∃ blob, w.envelope = envelopeOf w.aad blob ∧ blob.length ≤ maxBlob := by
  obtain ⟨b, -, henvelope⟩ := wrapPdu_eq_ok_iff.mp w.made
  have hmax := (wrapPdu_blob w.made).2
  rw [henvelope, envelopeOf_eq_append, List.drop_left' (length_envelopeHeader _ _)] at hmax
  exact ⟨_, henvelope, hmax⟩

theorem HonestWrap.peekDeviceId_envelope (w : HonestWrap H) :
    peekDeviceId w.envelope = some w.aad.deviceId := by
  obtain ⟨blob, henvelope, hmax⟩ := w.exists_blob
  have hparse := @parseEnvelopeHeader_envelopeOf w.aad blob
    (by simp only [maxBlob] at hmax; omega) []
  rw [List.append_nil] at hparse
  rw [henvelope]
  exact peekDeviceId_of_parseEnvelopeHeader hparse

theorem HonestWrap.egressLoop_envelope (w : HonestWrap H) :
    (egressLoop [w.envelope]).1 = [w.envelope] := by
  obtain ⟨blob, henvelope, hmax⟩ := w.exists_blob
  have hloop := egressLoop_envelopes [(w.aad, blob)]
    (by intro e he; rw [List.mem_singleton.mp he]; exact hmax) [w.envelope]
    (by rw [henvelope]; rfl)
  rw [hloop, henvelope]
  rfl

/-- Whatever the protocol of the listener, an envelope that carries a new number is forwarded
there under the protocol of the listener. -/
theorem HonestWrap.exists_run_forward (w : HonestWrap H) (protocol : ProtocolId)
    {condition : Egress → EgressEvent → Prop}
    (hcondition : ∀ s event, (∀ task ∈ s.tasks, task.protocol = protocol) → condition s event)
    {keyStore : KeyStore} (hkey : keyStore w.aad.deviceId = .ok w.key)
    {counters : SequenceCounter} (hfresh : counters.lastSeen w.aad.device < w.aad.seq)
    (hverify : verify w.key w.skFmt w.tagInput (H w.skFmt w.tagInput).toList = true) :
    ∃ s, EgressRun H verify condition (Egress.init keyStore counters) s ∧
      s.forwarded = [{ protocol
                       pdu := w.pdu
                       bytes := forwardEnvelope (egressFrame protocol w.pdu) }] := by
  have hopen := w.openPdu_envelope hverify []
  rw [List.append_nil] at hopen
  obtain ⟨counters', hvalid, -⟩ := validateRecv_of_lt hfresh
  -- The one task of the run in each of its phases.
  let task (incoming : List (List UInt8)) (phase : EgressPhase) : EgressTask :=
    { protocol, incoming, phase }
  let state (counters : SequenceCounter) (task : EgressTask) : Egress :=
    { keyStore, counters, tasks := [task], forwarded := [] }
  have hconnect : EgressStep H verify (.connect protocol [w.envelope])
      (Egress.init keyStore counters) (state counters (task [w.envelope] .reading)) := by
    have h := @EgressStep.connect H verify (Egress.init keyStore counters) protocol [w.envelope]
    rwa [w.egressLoop_envelope] at h
  have hload : EgressStep H verify (.load 0 w.envelope)
      (state counters (task [w.envelope] .reading))
      (state counters (task [] (.loaded w.envelope w.key))) :=
    EgressStep.load (state counters (task [w.envelope] .reading)) 0
      (task [w.envelope] .reading) w.envelope [] w.aad.deviceId w.key rfl rfl rfl
      w.peekDeviceId_envelope hkey
  have hopened : EgressStep H verify (.opened 0)
      (state counters (task [] (.loaded w.envelope w.key)))
      (state counters (task [] (.opened w.key w.aad w.pdu))) :=
    EgressStep.opened (state counters (task [] (.loaded w.envelope w.key))) 0
      (task [] (.loaded w.envelope w.key)) w.envelope w.key w.aad w.pdu rfl rfl hopen
  have haccept : EgressStep H verify (.accept 0)
      (state counters (task [] (.opened w.key w.aad w.pdu)))
      (state counters' (task [] (.accepted w.key w.aad w.pdu))) :=
    EgressStep.accept (state counters (task [] (.opened w.key w.aad w.pdu))) 0
      (task [] (.opened w.key w.aad w.pdu)) w.key w.aad w.pdu counters' rfl rfl hvalid
  have hforward := @EgressStep.forward H verify
    (state counters' (task [] (.accepted w.key w.aad w.pdu))) 0
    (task [] (.accepted w.key w.aad w.pdu)) w.key w.aad w.pdu rfl rfl
  have hone : ∀ counters t, t.protocol = protocol →
      ∀ event, condition (state counters t) event := by
    intro counters t ht event
    apply hcondition
    intro t' ht'
    rw [List.mem_singleton.mp ht']
    exact ht
  refine ⟨_, ((((Relation.ReflTransGen.single ⟨_, hconnect, ?_⟩).tail
    ⟨_, hload, hone _ _ rfl _⟩).tail ⟨_, hopened, hone _ _ rfl _⟩).tail
    ⟨_, haccept, hone _ _ rfl _⟩).tail ⟨_, hforward, hone _ _ rfl _⟩, rfl⟩
  apply hcondition
  intro t ht
  cases ht

/-! ## Main result -/

/-- In every run in which no task takes up an envelope that was sealed for the other protocol,
every PDU a task forwards was sealed by `wrap_pdu` for the protocol of its listener. -/
theorem egress_forwards_own_protocol (H : Hmac) (verify : NapqesKey → TagCheck)
    (wraps : List (HonestWrap H)) (hmac : IdealBlockMac H wraps verify) (keyStore : KeyStore)
    (counters : SequenceCounter) (s : Egress)
    (hrun : EgressRun H verify (RoutedByProtocol wraps) (Egress.init keyStore counters) s) :
    ∀ f ∈ s.forwarded, ∃ w ∈ wraps, w.pdu = f.pdu ∧ w.aad.protocol = f.protocol :=
  ((ProtocolBound.init keyStore counters).run hmac hrun).forwarded

/-- A genuine Modbus envelope on the Modbus listener. -/
theorem egress_forwards_own_protocol_zeroWrap :
    IdealBlockMac zeroHmac [zeroWrap] (logBlockVerify [zeroWrap]) ∧
      ∃ s, EgressRun zeroHmac (logBlockVerify [zeroWrap]) (RoutedByProtocol [zeroWrap])
          (Egress.init (fun _ => .ok zeroWrap.key) .new) s ∧
        s.forwarded = [{ protocol := .modbusTcp
                         pdu := [0x11, 0x03]
                         bytes := [0, 0, 0, 8, 0, 0, 0, 0, 0, 2, 0x11, 0x03] }] ∧
        ∀ f ∈ s.forwarded, ∃ w ∈ [zeroWrap], w.pdu = f.pdu ∧ w.aad.protocol = f.protocol := by
  have hideal := idealBlockMac_logBlockVerify [zeroWrap]
  obtain ⟨s, hrun, hforwarded⟩ := @HonestWrap.exists_run_forward zeroHmac
    (logBlockVerify [zeroWrap]) zeroWrap .modbusTcp (RoutedByProtocol [zeroWrap]) (by
      intro s event htasks
      cases event with
      | load i buf =>
          intro task htask w hw _
          rw [List.mem_singleton.mp hw, htasks task (List.mem_of_getElem? htask)]
          rfl
      | _ => trivial)
    (fun _ => .ok zeroWrap.key) rfl .new (by decide)
    (logBlockVerify_self (List.mem_singleton.mpr rfl))
  exact ⟨hideal, s, hrun, hforwarded,
    egress_forwards_own_protocol zeroHmac _ [zeroWrap] hideal _ _ s hrun⟩

/-- A genuine Modbus envelope on the DNP3 listener: the task forwards it, though nothing was
sealed for DNP3. -/
theorem egress_forwards_other_protocol :
    ¬ ∀ s, IdealBlockMac zeroHmac [zeroWrap] (logBlockVerify [zeroWrap]) →
      EgressRun zeroHmac (logBlockVerify [zeroWrap]) (fun _ _ => True)
        (Egress.init (fun _ => .ok zeroWrap.key) .new) s →
      ∀ f ∈ s.forwarded, ∃ w ∈ [zeroWrap], w.pdu = f.pdu ∧ w.aad.protocol = f.protocol := by
  intro h
  obtain ⟨s, hrun, hforwarded⟩ := @HonestWrap.exists_run_forward zeroHmac
    (logBlockVerify [zeroWrap]) zeroWrap .dnp3 (fun _ _ => True) (fun _ _ _ => trivial)
    (fun _ => .ok zeroWrap.key) rfl .new (by decide)
    (logBlockVerify_self (List.mem_singleton.mpr rfl))
  obtain ⟨w, hw, -, hprotocol⟩ := h s (idealBlockMac_logBlockVerify [zeroWrap]) hrun
    { protocol := .dnp3
      pdu := zeroWrap.pdu
      bytes := forwardEnvelope (egressFrame .dnp3 zeroWrap.pdu) }
    (by rw [hforwarded]; exact List.mem_singleton.mpr rfl)
  rw [List.mem_singleton.mp hw] at hprotocol
  cases hprotocol

end Napqes.Rust
