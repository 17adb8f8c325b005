import Napqes.Rust.Gateway
import Napqes.Rust.Proofs.OtReplay

/-!
# The OT envelope round trip

Every PDU of at most 65535 bytes is sealed. Its envelope opens again to the PDU, whatever
follows it in the buffer, moves the last-seen number of its device to its own and stays within
the size limit of the reader in `handle_egress`.
-/

namespace Napqes.Rust

variable {H : Hmac}

/-- A number above the last one seen is accepted. -/
theorem validateRecv_of_lt {c : SequenceCounter} {aad : OtAad}
    (h : c.lastSeen aad.device < aad.seq) :
    ∃ c', c.validateRecv aad.protocol aad.deviceId aad.seq = (.ok ⟨⟩, c') ∧
      c'.lastSeen = Function.update c.lastSeen aad.device aad.seq := by
  have hfresh : ¬ aad.seq ≤ (c.recvState (aad.protocol, aad.deviceId)).getD 0 :=
    UInt64.not_le.mpr h
  have hok : c.validateRecv aad.protocol aad.deviceId aad.seq = (.ok ⟨⟩, { c with
      recvState := Function.update c.recvState (aad.protocol, aad.deviceId) (some aad.seq) }) := by
    unfold SequenceCounter.validateRecv
    exact if_neg hfresh
  exact ⟨_, hok, (lastSeen_of_validateRecv_ok hok).2⟩

/-- What `unwrap_pdu` does with a genuine envelope that carries a fresh number. -/
theorem HonestWrap.unwrapPdu_envelope (w : HonestWrap H) {verify : TagCheck}
    (hverify : verify w.skFmt w.tagInput (H w.skFmt w.tagInput).toList = true)
    {counters : SequenceCounter} (hseq : counters.lastSeen w.aad.device < w.aad.seq)
    (extra : List UInt8) :
    ∃ counters', unwrapPdu H verify (w.envelope ++ extra) w.key counters =
        (.ok w.pdu, counters') ∧
      counters'.lastSeen = Function.update counters.lastSeen w.aad.device w.aad.seq := by
  obtain ⟨counters', hvalid, hlast⟩ := validateRecv_of_lt hseq
  refine ⟨counters', ?_, hlast⟩
  rw [unwrapPdu, w.openPdu_envelope hverify extra]
  simp only [hvalid]

/-- A PDU that fits the 2-codepoint length prefix is sealed. -/
theorem exists_wrapPdu {pdu : List UInt8} (h : pdu.length ≤ 65535) (aad : OtAad)
    (key : NapqesKey) : ∃ envelope, wrapPdu H pdu aad key = .ok envelope := by
  have hsize : PadProfile.bucket.blockSize pdu.length = .ok (bucketBlockSize pdu.length) := by
    unfold PadProfile.blockSize
    rw [if_neg]
    rw [padMaxExp, Nat.shiftLeft_eq, Nat.one_mul]
    omega
  exact ⟨_, wrapPdu_eq_ok_iff.mpr ⟨_, hsize, rfl⟩⟩

/-- The envelope of a PDU: its declared length is the length of its blob, which the reader of
`handle_egress` accepts. -/
theorem wrapPdu_blob {pdu : List UInt8} {aad : OtAad} {key : NapqesKey}
    {envelope : List UInt8} (h : wrapPdu H pdu aad key = .ok envelope) :
    beNat ((envelope.drop 19).take 4) = (envelope.drop envelopeHeaderSize).length ∧
      (envelope.drop envelopeHeaderSize).length ≤ maxBlob := by
  obtain ⟨b, hb, rfl⟩ := wrapPdu_eq_ok_iff.mp h
  obtain ⟨hreach, hlt, -⟩ := blockSize_spec hb
  have hle := hreach.le
  have hlen := @length_sealBlock H key.primes (deriveFormatSubkey H key.sk formatBlockV8).toList
    aad.toBytes (latin1 pdu) b (by rw [length_codepoints_latin1]; exact hlt)
  generalize sealBlock H key.primes _ aad.toBytes (latin1 pdu) b = blob at hlen
  have hmax : blob.length ≤ maxBlob := by
    rw [hlen, maxBlob]
    omega
  have hfield : ((envelopeOf aad blob).drop 19).take 4 = beBytes 4 blob.length := by
    rw [envelopeOf_eq_append, List.drop_append_of_le_length (by simp [envelopeHeaderSize]),
      drop_envelopeHeader, List.take_left' (length_beBytes _ _)]
  have hblob : (envelopeOf aad blob).drop envelopeHeaderSize = blob := by
    rw [envelopeOf_eq_append, List.drop_left' (length_envelopeHeader _ _)]
  rw [hfield, hblob, beNat_beBytes_of_lt (by rw [hlen]; omega)]
  exact ⟨rfl, hmax⟩

/-! ## Main result -/

/-- Round trip of an OT envelope: sealing succeeds, the declared blob length is the true one and
within `MAX_BLOB`, and `unwrap_pdu` returns the PDU and moves the last-seen number of this
device, and of no other, to the number of the envelope. -/
theorem unwrapPdu_of_wrapPdu (H : Hmac) (key : NapqesKey) (aad : OtAad) (pdu : List UInt8)
    (hpdu : pdu.length ≤ 65535) (counters : SequenceCounter)
    (hseq : counters.lastSeen aad.device < aad.seq) :
    ∃ envelope, wrapPdu H pdu aad key = .ok envelope ∧
      beNat ((envelope.drop 19).take 4) = (envelope.drop envelopeHeaderSize).length ∧
      (envelope.drop envelopeHeaderSize).length ≤ maxBlob ∧
      ∀ extra, ∃ counters',
        unwrapPdu H (hmacVerify H) (envelope ++ extra) key counters = (.ok pdu, counters') ∧
        counters'.lastSeen aad.device = aad.seq ∧
        ∀ device, device ≠ aad.device → counters'.lastSeen device = counters.lastSeen device := by
  obtain ⟨envelope, hwrap⟩ := @exists_wrapPdu H pdu hpdu aad key
  obtain ⟨hlen, hmax⟩ := wrapPdu_blob hwrap
  refine ⟨envelope, hwrap, hlen, hmax, ?_⟩
  intro extra
  let w : HonestWrap H := { key, aad, pdu, envelope, made := hwrap }
  obtain ⟨counters', hunwrap, hlast⟩ :=
    w.unwrapPdu_envelope (hmacVerify_self H _ _) hseq extra
  refine ⟨counters', hunwrap, ?_, ?_⟩
  · rw [hlast]
    exact Function.update_self ..
  · intro device hne
    rw [hlast]
    exact Function.update_of_ne hne ..

theorem unwrapPdu_of_wrapPdu_two_bytes :
    ∃ envelope, wrapPdu zeroHmac [0xFF, 0x80] { protocol := .dnp3, deviceId := 3, seq := 9 }
        zeroWrap.key = .ok envelope ∧
      ∃ counters', unwrapPdu zeroHmac (hmacVerify zeroHmac) (envelope ++ [1, 2, 3]) zeroWrap.key
          SequenceCounter.new = (.ok [0xFF, 0x80], counters') ∧
        counters'.lastSeen (.dnp3, 3) = 9 := by
  obtain ⟨envelope, hwrap, -, -, hunwrap⟩ := unwrapPdu_of_wrapPdu zeroHmac zeroWrap.key
    { protocol := .dnp3, deviceId := 3, seq := 9 } [0xFF, 0x80] (by decide) .new (by decide)
  obtain ⟨counters', hok, hlast, -⟩ := hunwrap [1, 2, 3]
  exact ⟨envelope, hwrap, counters', hok, hlast⟩

end Napqes.Rust
