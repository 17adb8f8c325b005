import Napqes.Rust.Egress
import Napqes.Rust.Proofs.Ingress

/-!
# A frame through both gateways

What the protected device receives is never the frame that was sent. `forward_envelope` puts a
length in front; of a Modbus frame the transaction id is lost, of a DNP3 frame the whole link
header.
-/

namespace Napqes.Rust

variable {H : Hmac}

/-! ## The link between the gateways -/

/-- The link carries a PDU unchanged exactly when the receiver takes its number for a new one. -/
theorem unwrapPdu_wrapPdu {pdu envelope : List UInt8} {aad : OtAad} {key : NapqesKey}
    (hwrap : wrapPdu H pdu aad key = .ok envelope) (counters : SequenceCounter) :
    (unwrapPdu H (hmacVerify H) envelope key counters).1.toOption =
      if counters.lastSeen aad.device < aad.seq then some pdu else none := by
  let w : HonestWrap H := { key, aad, pdu, envelope, made := hwrap }
  split
  case isTrue hfresh =>
    obtain ⟨counters', hunwrap, -⟩ := w.unwrapPdu_envelope (hmacVerify_self H _ _) hfresh []
    rw [List.append_nil] at hunwrap
    exact congrArg (fun r => r.1.toOption) hunwrap
  case isFalse hstale =>
    have hopen := w.openPdu_envelope (hmacVerify_self H _ _) []
    rw [List.append_nil] at hopen
    have hrefused : aad.seq ≤ (counters.recvState (aad.protocol, aad.deviceId)).getD 0 :=
      UInt64.not_lt.mp hstale
    rw [unwrapPdu, show openPdu H (hmacVerify H) envelope key = .ok (aad, pdu) from hopen]
    simp only [SequenceCounter.validateRecv, if_pos hrefused]
    rfl

/-- What is written for a frame, once its PDU is known. -/
theorem transport_of_ingressPdu {protocol : ProtocolId} {frame pdu : List UInt8}
    {deviceId : UInt64} (hpdu : ingressPdu protocol frame = some (deviceId, pdu))
    (hlen : pdu.length ≤ 65535) (seq : UInt64) (key : NapqesKey) (counters : SequenceCounter) :
    transport H protocol frame seq key counters =
      if counters.lastSeen (protocol, deviceId) < seq then
        some (forwardEnvelope (egressFrame protocol pdu))
      else none := by
  obtain ⟨envelope, hwrap⟩ := @exists_wrapPdu H pdu hlen { protocol, deviceId, seq } key
  have hlink := unwrapPdu_wrapPdu hwrap counters
  simp only [transport, hpdu, hwrap, Option.bind_eq_bind, Option.bind_some]
  rw [show (Except.ok envelope : RustM FrameError (List UInt8)).toOption = some envelope from rfl,
    Option.bind_some]
  by_cases hfresh : counters.lastSeen (protocol, deviceId) < seq
  · rw [hlink.trans (if_pos hfresh), if_pos hfresh]
    rfl
  · rw [hlink.trans (if_neg hfresh), if_neg hfresh]
    rfl

/-! ## Reassembly -/

/-- Of a Modbus frame everything but the transaction id comes back. -/
theorem reassembleModbus_of_isFrame {frame pdu : List UInt8} {hdr : Modbus.MbapHeader}
    (hextract : Modbus.extractPdu frame = .ok (hdr, pdu))
    (hframe : frame.length = 6 + hdr.length.toNat) :
    reassembleModbus pdu = 0 :: 0 :: frame.drop 2 := by
  obtain ⟨hpdu, -, hseven, hslice⟩ := Modbus.length_of_extractPdu hextract
  obtain ⟨hlength, hproto⟩ := Modbus.header_of_extractPdu hextract
  have hword : (UInt16.ofNat pdu.length).toNat = hdr.length.toNat := by
    rw [hpdu, UInt16.ofNat_toNat]
  have hrest : pdu = frame.drop 6 := by
    rw [hslice, List.take_of_length_le]
    rw [List.length_drop]
    omega
  have hsplit : ∀ offset, (frame.drop offset).take 2 ++ frame.drop (offset + 2) =
      frame.drop offset := by
    intro offset
    rw [← List.drop_drop, List.take_append_drop]
  rw [reassembleModbus, Modbus.reconstruct]
  simp only [hword]
  rw [hlength, hproto, hrest, hsplit 4, hsplit 2]
  rfl

/-- The bytes written to the device for a Modbus frame. -/
theorem forwardEnvelope_egressFrame_modbus {frame pdu : List UInt8} {d : UInt64}
    (hframe : Modbus.IsFrame frame) (hpdu : modbusPdu frame = .ok (d, pdu)) :
    forwardEnvelope (egressFrame .modbusTcp pdu) =
      beBytes 4 frame.length ++ (0 :: 0 :: frame.drop 2) := by
  obtain ⟨hdr, pdu', hextract, hlen⟩ := hframe
  obtain ⟨hdr', hextract', -⟩ := modbusPdu_eq_ok_iff.mp hpdu
  rw [hextract', Except.ok.injEq, Prod.mk.injEq] at hextract
  obtain ⟨rfl, rfl⟩ := hextract
  have hreassemble := reassembleModbus_of_isFrame hextract' hlen
  have hseven := (Modbus.length_of_extractPdu hextract').2.2.1
  have hword := hdr'.length.toNat_lt
  have hlength : (0 :: 0 :: frame.drop 2).length = frame.length := by
    rw [List.length_cons, List.length_cons, List.length_drop]
    omega
  rw [egressFrame, hreassemble, forwardEnvelope, hlength]
  rw [Nat.mod_eq_of_lt (by omega)]

/-- The bytes written to the device for a DNP3 frame. -/
theorem forwardEnvelope_egressFrame_dnp3 {frame payload : List UInt8} {d : UInt64}
    (hframe : Dnp3.IsFrame frame) (hpayload : dnp3Pdu frame = .ok (d, payload)) :
    forwardEnvelope (egressFrame .dnp3 payload) =
      beBytes 4 (frame.length - 10) ++ frame.drop 10 := by
  obtain ⟨hdr, payload', hextract, hlen⟩ := hframe
  obtain ⟨hdr', hextract', -⟩ := dnp3Pdu_eq_ok_iff.mp hpayload
  rw [hextract', Except.ok.injEq, Prod.mk.injEq] at hextract
  obtain ⟨rfl, rfl⟩ := hextract
  obtain ⟨hsize, -, hslice⟩ := Dnp3.length_of_extractPayload hextract'
  have hbyte := hdr'.length.toNat_lt
  rw [← hlen, List.take_of_length_le (Nat.le_refl _)] at hslice
  rw [← hlen] at hsize
  rw [Dnp3.totalFrameLen] at hlen
  rw [egressFrame, forwardEnvelope, hslice, List.length_drop]
  rw [Nat.mod_eq_of_lt (by omega)]

/-! ## Main result -/

/-- No frame arrives as it was sent. Of a Modbus frame whose number is new the device receives
the frame's length and then the frame with the transaction id zeroed; of a DNP3 frame the length
of the payload and then the payload without its link header. -/
theorem transport_never_transparent (H : Hmac) (key : NapqesKey) (seq : UInt64)
    (counters : SequenceCounter) (frame : List UInt8) :
    (Modbus.IsFrame frame →
      transport H .modbusTcp frame seq key counters ≠ some frame ∧
      ∀ d pdu, modbusPdu frame = .ok (d, pdu) → counters.lastSeen (.modbusTcp, d) < seq →
        transport H .modbusTcp frame seq key counters =
          some (beBytes 4 frame.length ++ (0 :: 0 :: frame.drop 2))) ∧
    (Dnp3.IsFrame frame →
      transport H .dnp3 frame seq key counters ≠ some frame ∧
      ∀ d payload, dnp3Pdu frame = .ok (d, payload) → counters.lastSeen (.dnp3, d) < seq →
        transport H .dnp3 frame seq key counters =
          some (beBytes 4 (frame.length - 10) ++ frame.drop 10)) := by
  constructor
  · intro hframe
    obtain ⟨hne, d, pdu, hpdu, hlen, hmax⟩ := hframe.spec
    have htransport := @transport_of_ingressPdu H .modbusTcp frame pdu d
      (by rw [ingressPdu, hpdu]; rfl) hmax seq key counters
    rw [forwardEnvelope_egressFrame_modbus hframe hpdu] at htransport
    constructor
    · intro hsame
      rw [htransport] at hsame
      split at hsame
      case isTrue =>
        have hlength := congrArg List.length (Option.some.inj hsame)
        simp only [List.length_append, length_beBytes, List.length_cons, List.length_drop]
          at hlength
        omega
      case isFalse => cases hsame
    · intro d' pdu' hpdu' hfresh
      rw [hpdu, Except.ok.injEq, Prod.mk.injEq] at hpdu'
      obtain ⟨rfl, rfl⟩ := hpdu'
      rw [htransport, if_pos hfresh]
  · intro hframe
    obtain ⟨hne, d, payload, hpayload, hlen, hmax⟩ := hframe.spec
    have htransport := @transport_of_ingressPdu H .dnp3 frame payload d
      (by rw [ingressPdu, hpayload]; rfl) hmax seq key counters
    rw [forwardEnvelope_egressFrame_dnp3 hframe hpayload] at htransport
    constructor
    · intro hsame
      rw [htransport] at hsame
      split at hsame
      case isTrue =>
        have hlength := congrArg List.length (Option.some.inj hsame)
        simp only [List.length_append, length_beBytes, List.length_drop] at hlength
        omega
      case isFalse => cases hsame
    · intro d' payload' hpayload' hfresh
      rw [hpayload, Except.ok.injEq, Prod.mk.injEq] at hpayload'
      obtain ⟨rfl, rfl⟩ := hpayload'
      rw [htransport, if_pos hfresh]

/-- Request 7 reaches the device as request 0, behind four bytes of length. -/
theorem transport_never_transparent_readRequest :
    Modbus.IsFrame (readRequest 7) ∧
      transport zeroHmac .modbusTcp (readRequest 7) 1 zeroWrap.key .new =
        some ([0, 0, 0, 12] ++ readRequest 0) := by
  refine ⟨isFrame_readRequest 7, ?_⟩
  have hwritten := (transport_never_transparent zeroHmac zeroWrap.key 1 .new (readRequest 7)).1
    (isFrame_readRequest 7)
  exact hwritten.2 1 [1, 3, 0, 0, 0, 10] rfl (by decide)

/-- The request with transaction id 7 is not what the device receives. -/
theorem transport_changes_readRequest :
    ¬ (Modbus.IsFrame (readRequest 7) →
      transport zeroHmac .modbusTcp (readRequest 7) 1 zeroWrap.key .new =
        some (readRequest 7)) := by
  intro h
  have hsame := h (isFrame_readRequest 7)
  rw [@transport_of_ingressPdu zeroHmac .modbusTcp (readRequest 7) [1, 3, 0, 0, 0, 10] 1 rfl
    (by decide) 1 zeroWrap.key .new] at hsame
  split at hsame
  case isTrue => exact absurd (Option.some.inj hsame) (by decide)
  case isFalse => cases hsame

end Napqes.Rust
