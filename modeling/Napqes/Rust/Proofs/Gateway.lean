import Napqes.Rust.Gateway
import Napqes.Rust.Proofs.OtFrame

/-!
# The two framings of the gateway link

The reader expects bare envelopes, and extracts any sequence of them from any segmentation.
The writer puts a length in front, which the reader takes for the start of the header, so it
extracts no envelope the writer sends.
-/

namespace Napqes.Rust

variable {H : Hmac}

/-! ## What the reader extracts -/

/-- A round on a stream that starts with an envelope reads exactly that envelope. -/
theorem readEnvelope_envelopeOf {stream : Segments} {aad : OtAad} {blob rest : List UInt8}
    (hblob : blob.length ≤ maxBlob) (h : stream.flatten = envelopeOf aad blob ++ rest) :
    ∃ stream', readEnvelope stream = .envelope (envelopeOf aad blob) stream' ∧
      stream'.flatten = rest := by
  rw [envelopeOf_eq_append, List.append_assoc] at h
  have hheader := length_envelopeHeader aad blob.length
  obtain ⟨stream₁, hread₁, hrest₁⟩ := @readExact_of_le envelopeHeaderSize stream
    (by rw [h, List.length_append, hheader]; exact Nat.le_add_right _ _)
  rw [h, List.take_left' hheader] at hread₁
  rw [h, List.drop_left' hheader] at hrest₁
  have hlen : beNat (((envelopeHeader aad blob.length).drop 19).take 4) = blob.length := by
    have hlt : blob.length < 256 ^ 4 := by
      simp only [maxBlob] at hblob
      omega
    rw [drop_envelopeHeader, List.take_of_length_le (by simp), beNat_beBytes_of_lt hlt]
  obtain ⟨stream₂, hread₂, hrest₂⟩ := @readExact_of_le blob.length stream₁
    (by rw [hrest₁, List.length_append]; exact Nat.le_add_right _ _)
  rw [hrest₁, List.take_left' rfl] at hread₂
  rw [hrest₁, List.drop_left' rfl] at hrest₂
  refine ⟨stream₂, ?_, hrest₂⟩
  rw [readEnvelope, hread₁]
  simp only [hlen, if_neg (Nat.not_lt.mpr hblob), hread₂, envelopeOf_eq_append]

theorem egressLoop_of_envelope {stream rest : Segments} {buf : List UInt8}
    (h : readEnvelope stream = .envelope buf rest) :
    egressLoop stream = (buf :: (egressLoop rest).1, (egressLoop rest).2) := by
  rw [egressLoop]
  split
  case h_1 buf' rest' h' =>
    obtain ⟨rfl, rfl⟩ := EgressRead.envelope.inj (h.symm.trans h')
    rfl
  all_goals simp_all

theorem egressLoop_of_eof {stream : Segments} {unread : List UInt8}
    (h : readEnvelope stream = .eof unread) : egressLoop stream = ([], .eof unread) := by
  rw [egressLoop]
  split <;> simp_all

theorem egressLoop_of_ne_envelope {stream : Segments}
    (h : ∀ buf rest, readEnvelope stream ≠ .envelope buf rest) : (egressLoop stream).1 = [] := by
  rw [egressLoop]
  split <;> simp_all

/-- From any number of bare envelopes, segmented in any way, the reader extracts exactly these
envelopes and leaves no byte over. -/
theorem egressLoop_envelopes (envelopes : List (OtAad × List UInt8))
    (hblobs : ∀ e ∈ envelopes, e.2.length ≤ maxBlob) (stream : Segments)
    (h : stream.flatten = (envelopes.map fun e => envelopeOf e.1 e.2).flatten) :
    egressLoop stream = (envelopes.map fun e => envelopeOf e.1 e.2, .eof []) := by
  induction envelopes generalizing stream with
  | nil =>
      have hread : readEnvelope stream = .eof [] := by
        rw [List.map_nil, List.flatten_nil] at h
        rw [readEnvelope, readExact_of_lt (by rw [h]; simp [envelopeHeaderSize]), h]
      exact egressLoop_of_eof hread
  | cons e envelopes ih =>
      rw [List.map_cons, List.flatten_cons] at h
      obtain ⟨stream', hread, hrest⟩ :=
        readEnvelope_envelopeOf (hblobs e (List.mem_cons_self ..)) h
      have htail := ih (fun e' he' => hblobs e' (List.mem_cons_of_mem _ he')) stream' hrest
      rw [egressLoop_of_envelope hread, htail, List.map_cons]

/-- No extracted buffer is longer than the stream. -/
theorem length_le_of_mem_egressLoop (stream : Segments) :
    ∀ buf ∈ (egressLoop stream).1, buf.length ≤ stream.flatten.length := by
  fun_induction egressLoop stream with
  | case1 stream buf rest hread bufs exit hrest ih =>
      obtain ⟨hsplit, -⟩ := readEnvelope_eq_envelope hread
      rw [hsplit, List.length_append]
      intro buf' hbuf'
      rw [hrest] at ih
      rcases List.mem_cons.mp hbuf' with rfl | hbuf'
      · exact Nat.le_add_right _ _
      · exact Nat.le_add_left_of_le (ih buf' hbuf')
  | case2 => simp
  | case3 => simp
  | case4 => simp

/-! ## What the writer sends -/

/-- The first byte on the link is the high byte of a length below 2^24. -/
theorem head_forwardEnvelope {envelope : List UInt8} (hlen : envelope.length < 2 ^ 24) :
    (forwardEnvelope envelope).head? = some 0 := by
  have hmod : envelope.length % 2 ^ 32 = envelope.length := Nat.mod_eq_of_lt (by omega)
  have hdiv : envelope.length / 256 ^ 3 = 0 := Nat.div_eq_of_lt (by omega)
  simp only [forwardEnvelope, beBytes, hmod, hdiv, List.cons_append, List.head?_cons]
  rfl

/-- A buffer that starts with a zero byte is no envelope. -/
theorem peekDeviceId_of_head {buf : List UInt8} (h : buf.head? = some 0) :
    peekDeviceId buf = none := by
  cases buf with
  | nil => cases h
  | cons b buf =>
      obtain rfl : b = 0 := by simpa using h
      rw [peekDeviceId]
      split
      case isTrue => rfl
      case isFalse => rw [if_pos (by simp [envelopeMagic])]

/-- The reader takes the first length byte, which is zero, for the first magic byte; after the
first buffer fewer bytes are left than the envelope has. -/
theorem envelope_not_mem_egressLoop {envelope : List UInt8} {stream : Segments}
    (hmagic : envelope.head? = some 0x4E) (hlen : envelope.length < 2 ^ 24)
    (hstream : stream.flatten = forwardEnvelope envelope) :
    envelope ∉ (egressLoop stream).1 ∧
      ∀ buf, (egressLoop stream).1.head? = some buf → peekDeviceId buf = none := by
  have hzero : stream.flatten.head? = some 0 := by
    rw [hstream]
    exact head_forwardEnvelope hlen
  have hlength : stream.flatten.length = 4 + envelope.length := by
    rw [hstream]
    simp [forwardEnvelope]
  by_cases hread : ∃ buf rest, readEnvelope stream = .envelope buf rest
  · obtain ⟨buf, rest, hread⟩ := hread
    obtain ⟨hsplit, hbuf⟩ := readEnvelope_eq_envelope hread
    simp only [envelopeHeaderSize] at hbuf
    have hhead : buf.head? = some 0 := by
      rw [hsplit, List.head?_append_of_ne_nil _ (List.ne_nil_of_length_pos (by omega))] at hzero
      exact hzero
    rw [egressLoop_of_envelope hread, List.mem_cons, not_or]
    refine ⟨⟨?_, ?_⟩, ?_⟩
    · rintro rfl
      rw [hmagic] at hhead
      simp at hhead
    · intro hmem
      have hle := length_le_of_mem_egressLoop rest _ hmem
      rw [hsplit, List.length_append] at hlength
      omega
    · intro first hfirst
      obtain rfl := Option.some.inj hfirst
      exact peekDeviceId_of_head hhead
  · rw [egressLoop_of_ne_envelope fun buf rest h => hread ⟨buf, rest, h⟩]
    simp

/-- What `wrap_pdu` made and `forward_envelope` sent is lost: whatever the PDU, the header
fields and the segmentation, the reader never extracts exactly that envelope, in fact never
extracts it at all, and the first buffer it does extract is refused as malformed. -/
theorem egressLoop_never_extracts (H : Hmac) (pdu : List UInt8) (aad : OtAad) (key : NapqesKey)
    (envelope : List UInt8) (hwrap : wrapPdu H pdu aad key = .ok envelope) (stream : Segments)
    (hstream : stream.flatten = forwardEnvelope envelope) :
    egressLoop stream ≠ ([envelope], .eof []) ∧ envelope ∉ (egressLoop stream).1 ∧
      ∀ buf, (egressLoop stream).1.head? = some buf → peekDeviceId buf = none := by
  have hmagic : envelope.head? = some 0x4E := by
    obtain ⟨b, -, rfl⟩ := wrapPdu_eq_ok_iff.mp hwrap
    rfl
  obtain ⟨hnot, hfirst⟩ :=
    envelope_not_mem_egressLoop hmagic (length_lt_of_wrapPdu hwrap) hstream
  refine ⟨?_, hnot, hfirst⟩
  intro heq
  rw [heq] at hnot
  exact hnot (List.mem_singleton.mpr rfl)

theorem egressLoop_never_extracts_zeroWrap :
    wrapPdu zeroHmac zeroWrap.pdu zeroWrap.aad zeroWrap.key = .ok zeroWrap.envelope ∧
      egressLoop [forwardEnvelope zeroWrap.envelope] ≠ ([zeroWrap.envelope], .eof []) :=
  ⟨zeroWrap.made, (egressLoop_never_extracts _ _ _ _ _ zeroWrap.made _ (by simp)).1⟩

/-- The two-byte PDU `11 03` for unit 17, sent in one segment, does not arrive. -/
theorem egressLoop_misses_zeroWrap :
    ¬ (wrapPdu zeroHmac [0x11, 0x03] { protocol := .modbusTcp, deviceId := 17, seq := 1 }
        zeroWrap.key = .ok zeroWrap.envelope →
      egressLoop [forwardEnvelope zeroWrap.envelope] = ([zeroWrap.envelope], .eof [])) := by
  intro h
  have hnot := (@envelope_not_mem_egressLoop zeroWrap.envelope
    [forwardEnvelope zeroWrap.envelope] rfl (length_lt_of_wrapPdu zeroWrap.made) (by simp)).1
  rw [h zeroWrap.made] at hnot
  exact hnot (List.mem_singleton.mpr rfl)

end Napqes.Rust
