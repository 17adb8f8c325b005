import Napqes.Rust.OtFrame
import Napqes.Rust.Proofs.Block
import Napqes.Rust.Proofs.Domains

/-!
# Facts about OT envelopes

The associated data determines the header fields, PDU bytes survive the Latin-1 detour, and
under an ideal MAC an envelope that opens was sealed by `wrap_pdu` with the same header.
-/

namespace Napqes.Rust

variable {H : Hmac}

/-! ## Header fields -/

theorem ProtocolId.toU8_inj {p q : ProtocolId} (h : p.toU8 = q.toU8) : p = q := by
  cases p <;> cases q <;> simp_all [ProtocolId.toU8]

@[simp] theorem ProtocolId.fromU8_toU8 (p : ProtocolId) : ProtocolId.fromU8 p.toU8 = some p := by
  cases p <;> rfl

@[simp] theorem OtAad.length_toBytes (aad : OtAad) : aad.toBytes.length = 17 := by
  simp [OtAad.toBytes]

theorem OtAad.toBytes_inj {a b : OtAad} (h : a.toBytes = b.toBytes) : a = b := by
  obtain ⟨hproto, hrest⟩ := List.cons.inj h
  obtain ⟨hdevice, hseq⟩ := beBytes_append_inj (w := 8) a.deviceId.toNat_lt b.deviceId.toNat_lt
    hrest
  have hseq' := beBytes_inj (w := 8) a.seq.toNat_lt b.seq.toNat_lt hseq
  cases a
  cases b
  simp only [OtAad.mk.injEq]
  exact ⟨ProtocolId.toU8_inj hproto, UInt64.toNat_inj.mp hdevice, UInt64.toNat_inj.mp hseq'⟩

/-! ## Latin-1 -/

theorem codepoints_latin1 (pdu : List UInt8) :
    (latin1 pdu).codepoints = pdu.map UInt8.toNat := by
  rw [latin1, Str.codepoints, List.map_map]
  rfl

/-- Reading the characters back as bytes inverts the detour. -/
theorem eq_of_collectBytes {e : FrameError} {s : Str} {pdu pdu' : List UInt8}
    (h : collectBytes e s = .ok pdu) (hs : s.codepoints = (latin1 pdu').codepoints) :
    pdu = pdu' := by
  rw [codepoints_latin1] at hs
  induction s generalizing pdu pdu' with
  | nil =>
      simp only [collectBytes, Except.ok.injEq] at h
      simp only [Str.codepoints, List.map_nil] at hs
      rw [← h, List.map_eq_nil_iff.mp hs.symm]
  | cons c s ih =>
      cases pdu' with
      | nil => simp [Str.codepoints] at hs
      | cons b pdu' =>
          simp only [Str.codepoints, List.map_cons, List.cons.injEq] at hs
          rw [collectBytes] at h
          split at h
          case isTrue =>
            simp only [bind_eq_ok, pure, Except.pure, Except.ok.injEq] at h
            obtain ⟨rest, hrest, rfl⟩ := h
            rw [hs.1, ih hrest hs.2]
            simp
          case isFalse => simp [err] at h

theorem collectBytes_latin1 (e : FrameError) (pdu : List UInt8) :
    collectBytes e (latin1 pdu) = .ok pdu := by
  induction pdu with
  | nil => rfl
  | cons b pdu ih =>
      have hb : (Char.ofUInt8 b).toNat = b.toNat := rfl
      have hlt : b.toNat < 256 := b.toNat_lt
      rw [latin1] at ih
      simp [latin1, collectBytes, hb, hlt, ih, pure, Except.pure]

/-! ## Sealed envelopes -/

/-- A call of `wrap_pdu` that succeeded. -/
structure HonestWrap (H : Hmac) where
  key : NapqesKey
  aad : OtAad
  pdu : List UInt8
  envelope : List UInt8
  made : wrapPdu H pdu aad key = .ok envelope

namespace HonestWrap

/-- The block subkey of the key the envelope was sealed with. -/
def skFmt (w : HonestWrap H) : List UInt8 := (deriveFormatSubkey H w.key.sk formatBlockV8).toList

/-- The input this call fed to `compute_auth_tag`. -/
def tagInput (w : HonestWrap H) : List UInt8 :=
  blockTagInput H w.key.primes w.skFmt w.aad.toBytes (latin1 w.pdu) (bucketBlockSize w.pdu.length)

end HonestWrap

theorem blockSize_bucket {n b : Nat} (h : PadProfile.bucket.blockSize n = .ok b) :
    b = bucketBlockSize n := by
  unfold PadProfile.blockSize at h
  split at h
  case isTrue => simp [err] at h
  case isFalse => simpa using h.symm

@[simp] theorem length_codepoints_latin1 (pdu : List UInt8) :
    (latin1 pdu).codepoints.length = pdu.length := by
  rw [codepoints_latin1, List.length_map]

/-- The envelope of a blob. -/
def envelopeOf (aad : OtAad) (blob : List UInt8) : List UInt8 :=
  envelopeMagic ++ ([aad.protocol.toU8] ++ (beBytes 8 aad.deviceId.toNat ++
    (beBytes 8 aad.seq.toNat ++ (beBytes 4 blob.length ++ blob))))

/-- The header of an envelope whose blob has `blobLen` bytes. -/
def envelopeHeader (aad : OtAad) (blobLen : Nat) : List UInt8 :=
  envelopeMagic ++ ([aad.protocol.toU8] ++ (beBytes 8 aad.deviceId.toNat ++
    (beBytes 8 aad.seq.toNat ++ beBytes 4 blobLen)))

@[simp] theorem length_envelopeHeader (aad : OtAad) (blobLen : Nat) :
    (envelopeHeader aad blobLen).length = envelopeHeaderSize := by
  simp [envelopeHeader, envelopeMagic, envelopeHeaderSize]

theorem drop_envelopeHeader (aad : OtAad) (blobLen : Nat) :
    (envelopeHeader aad blobLen).drop 19 = beBytes 4 blobLen := by
  have hfront : envelopeHeader aad blobLen =
      (envelopeMagic ++ ([aad.protocol.toU8] ++ (beBytes 8 aad.deviceId.toNat ++
        beBytes 8 aad.seq.toNat))) ++ beBytes 4 blobLen := by simp [envelopeHeader]
  rw [hfront, List.drop_left' (by simp [envelopeMagic])]

theorem envelopeOf_eq_append (aad : OtAad) (blob : List UInt8) :
    envelopeOf aad blob = envelopeHeader aad blob.length ++ blob := by
  simp [envelopeOf, envelopeHeader]

@[simp] theorem length_envelopeOf (aad : OtAad) (blob : List UInt8) :
    (envelopeOf aad blob).length = envelopeHeaderSize + blob.length := by
  rw [envelopeOf_eq_append, List.length_append, length_envelopeHeader]

/-- `wrap_pdu` puts the block ciphertext of the PDU into an envelope. -/
theorem wrapPdu_eq_ok_iff {pdu : List UInt8} {aad : OtAad} {key : NapqesKey}
    {envelope : List UInt8} :
    wrapPdu H pdu aad key = .ok envelope ↔
      ∃ b, PadProfile.bucket.blockSize pdu.length = .ok b ∧
        envelope = envelopeOf aad (sealBlock H key.primes
          (deriveFormatSubkey H key.sk formatBlockV8).toList aad.toBytes (latin1 pdu) b) := by
  have hcore := encryptBytesV8Core_eq_ok_iff (H := H) key.keyValid (latin1 pdu) key.sk aad.toBytes
    .bucket
  rw [length_codepoints_latin1] at hcore
  simp only [wrapPdu, bind_eq_ok, pure, Except.pure, Except.ok.injEq]
  constructor
  · rintro ⟨blob, hblob, rfl⟩
    obtain ⟨b, hb, rfl⟩ := (hcore _).mp (mapErr_eq_ok hblob)
    exact ⟨b, hb, rfl⟩
  · rintro ⟨b, hb, rfl⟩
    refine ⟨_, ?_, rfl⟩
    rw [encryptBytesV8Key, (hcore _).mpr ⟨b, hb, rfl⟩, mapErr_ok]

/-- Every envelope has fewer than 2^24 bytes: the largest block has 65536 codepoints. -/
theorem length_lt_of_wrapPdu {pdu : List UInt8} {aad : OtAad} {key : NapqesKey}
    {envelope : List UInt8} (h : wrapPdu H pdu aad key = .ok envelope) :
    envelope.length < 2 ^ 24 := by
  obtain ⟨b, hb, rfl⟩ := wrapPdu_eq_ok_iff.mp h
  obtain ⟨hreach, hlt, -⟩ := blockSize_spec hb
  have hle := hreach.le
  rw [length_envelopeOf, length_sealBlock _ (by rw [length_codepoints_latin1]; exact hlt),
    envelopeHeaderSize]
  omega

theorem ProtocolId.toU8_of_fromU8 {v : UInt8} {p : ProtocolId}
    (h : ProtocolId.fromU8 v = some p) : p.toU8 = v := by
  unfold ProtocolId.fromU8 at h
  split at h
  case isTrue hv => rw [hv, ← Option.some.inj h]; rfl
  case isFalse =>
    split at h
    case isTrue hv => rw [hv, ← Option.some.inj h]; rfl
    case isFalse => cases h

/-- A buffer whose header parses is an envelope, with bytes behind it or not. -/
theorem eq_envelopeOf_of_parseEnvelopeHeader {buf : List UInt8} {protocol : ProtocolId}
    {deviceId seq : UInt64} {start len : Nat}
    (h : parseEnvelopeHeader buf = .ok (protocol, deviceId, seq, start, len)) :
    buf = envelopeOf { protocol, deviceId, seq } ((buf.drop start).take len) ++
      buf.drop (start + len) := by
  unfold parseEnvelopeHeader at h
  simp only at h
  split at h
  case isTrue => cases h
  case isFalse hsize =>
    split at h
    case isTrue => cases h
    case isFalse hmagic =>
      split at h
      case h_1 => cases h
      case h_2 p hproto =>
        split at h
        case isTrue => cases h
        case isFalse hblob =>
          simp only [Except.ok.injEq, Prod.mk.injEq] at h
          obtain ⟨rfl, rfl, rfl, rfl, rfl⟩ := h
          simp only [envelopeHeaderSize, Nat.not_lt] at hsize hblob
          -- Each field is the slice it was read from, so the slices put the buffer together.
          have hfield : ∀ offset, offset + 8 ≤ buf.length →
              beBytes 8 (UInt64.ofNat (beNat ((buf.drop offset).take 8))).toNat =
                (buf.drop offset).take 8 := by
            intro offset hle
            have hlen : ((buf.drop offset).take 8).length = 8 := by
              rw [List.length_take, List.length_drop]
              omega
            have hlt := beNat_lt ((buf.drop offset).take 8)
            rw [hlen] at hlt
            rw [UInt64.toNat_ofNat_of_lt' hlt, beBytes_beNat_of_length hlen]
          have hlen : ((buf.drop 23).take (beNat ((buf.drop 19).take 4))).length =
              beNat ((buf.drop 19).take 4) := by
            rw [List.length_take, List.length_drop]
            omega
          have hcount : beBytes 4 (beNat ((buf.drop 19).take 4)) = (buf.drop 19).take 4 := by
            apply beBytes_beNat_of_length
            rw [List.length_take, List.length_drop]
            omega
          have hthird : [buf.getD 2 0] = (buf.drop 2).take 1 := by
            rw [List.drop_eq_getElem_cons (by omega : 2 < buf.length), List.getD_eq_getElem?_getD,
              List.getElem?_eq_getElem (by omega : 2 < buf.length)]
            rfl
          rw [envelopeOf, envelopeHeaderSize, hlen, hcount]
          dsimp only
          rw [hfield 3 (by omega), hfield 11 (by omega), ProtocolId.toU8_of_fromU8 hproto,
            ← Decidable.not_not.mp hmagic, hthird]
          simp only [List.append_assoc]
          rw [← List.drop_drop, List.take_append_drop]
          have hjoin : ∀ offset n, (buf.drop offset).take n ++ buf.drop (offset + n) =
              buf.drop offset := by
            intro offset n
            rw [← List.drop_drop, List.take_append_drop]
          rw [hjoin 19 4, hjoin 11 8, hjoin 3 8, hjoin 2 1, List.take_append_drop]

/-- What `openPdu` has done when it succeeds. -/
theorem openPdu_eq_ok {verify : TagCheck} {buf : List UInt8} {key : NapqesKey} {aad : OtAad}
    {pdu : List UInt8} (h : openPdu H verify buf key = .ok (aad, pdu)) :
    ∃ blob s e, envelopeOf aad blob <+: buf ∧
      decryptBytesV8Key H verify blob key aad.toBytes = .ok s ∧ collectBytes e s = .ok pdu := by
  simp only [openPdu, bind_eq_ok, pure, Except.pure, Except.ok.injEq, Prod.mk.injEq] at h
  obtain ⟨⟨protocol, deviceId, seq, start, len⟩, hparse, s, hs, pdu', hpdu, rfl, rfl⟩ := h
  exact ⟨_, s, _, ⟨_, (eq_envelopeOf_of_parseEnvelopeHeader hparse).symm⟩, mapErr_eq_ok hs, hpdu⟩

/-- An envelope sealed under the shortest key and an all-zero `sk`. -/
def zeroWrap : HonestWrap zeroHmac where
  key := ⟨[1000003], .ofList 32 [], validateKey_1000003⟩
  aad := { protocol := .modbusTcp, deviceId := 17, seq := 1 }
  pdu := [0x11, 0x03]
  envelope := _
  made := wrapPdu_eq_ok_iff.mpr ⟨16, by rfl, rfl⟩

/-- The header of an envelope parses back to its fields, whatever follows the envelope. -/
theorem parseEnvelopeHeader_envelopeOf (aad : OtAad) {blob : List UInt8}
    (hblob : blob.length < 2 ^ 32) (extra : List UInt8) :
    parseEnvelopeHeader (envelopeOf aad blob ++ extra) =
      .ok (aad.protocol, aad.deviceId, aad.seq, envelopeHeaderSize, blob.length) := by
  have hdevice : beNat (beBytes 8 aad.deviceId.toNat) = aad.deviceId.toNat :=
    beNat_beBytes_of_lt (w := 8) aad.deviceId.toNat_lt
  have hseq : beNat (beBytes 8 aad.seq.toNat) = aad.seq.toNat :=
    beNat_beBytes_of_lt (w := 8) aad.seq.toNat_lt
  have hlen : beNat (beBytes 4 blob.length) = blob.length := beNat_beBytes_of_lt (w := 4) hblob
  have hdrop3 : (envelopeOf aad blob ++ extra).drop 3 = beBytes 8 aad.deviceId.toNat ++
      (beBytes 8 aad.seq.toNat ++ (beBytes 4 blob.length ++ (blob ++ extra))) := by
    simp [envelopeOf, envelopeMagic]
  have hdrop11 : (envelopeOf aad blob ++ extra).drop 11 =
      beBytes 8 aad.seq.toNat ++ (beBytes 4 blob.length ++ (blob ++ extra)) := by
    rw [show 11 = 3 + 8 from rfl, ← List.drop_drop, hdrop3, List.drop_left' (length_beBytes _ _)]
  have hdrop19 : (envelopeOf aad blob ++ extra).drop 19 =
      beBytes 4 blob.length ++ (blob ++ extra) := by
    rw [show 19 = 11 + 8 from rfl, ← List.drop_drop, hdrop11, List.drop_left' (length_beBytes _ _)]
  have hmagic : (envelopeOf aad blob ++ extra).take 2 = envelopeMagic := rfl
  have hproto : (envelopeOf aad blob ++ extra).getD 2 0 = aad.protocol.toU8 := rfl
  rw [parseEnvelopeHeader]
  simp only [List.length_append, length_envelopeOf, hmagic, hproto, ProtocolId.fromU8_toU8, hdrop3,
    hdrop11, hdrop19, List.take_left' (length_beBytes _ _), hdevice, hseq, hlen,
    UInt64.ofNat_toNat, ne_eq, not_true_eq_false, if_false]
  rw [if_neg (by omega), if_neg (by omega)]

/-- What `wrap_pdu` sealed opens to the same header and PDU, if its own tag verifies. Bytes
behind the envelope are not looked at. -/
theorem HonestWrap.openPdu_envelope (w : HonestWrap H) {verify : TagCheck}
    (hverify : verify w.skFmt w.tagInput (H w.skFmt w.tagInput).toList = true)
    (extra : List UInt8) :
    openPdu H verify (w.envelope ++ extra) w.key = .ok (w.aad, w.pdu) := by
  obtain ⟨b, hb, henvelope⟩ := wrapPdu_eq_ok_iff.mp w.made
  obtain ⟨hreach, hlt, hmax⟩ := blockSize_spec hb
  obtain rfl := blockSize_bucket hb
  rw [← length_codepoints_latin1] at hlt
  have hlen : (latin1 w.pdu).codepoints.length ≤ maxPlaintextCodepoints := by
    rw [length_codepoints_latin1]
    simp only [padMaxExp, maxPlaintextCodepoints] at hmax ⊢
    omega
  have hblob := @length_sealBlock H w.key.primes w.skFmt w.aad.toBytes _ _ hlt
  rw [length_codepoints_latin1] at hblob
  have hsmall := hreach.le
  have hdec := (@decryptBytesV8Core_eq_ok_iff H _ verify w.key.keyValid _ w.key.sk
    w.aad.toBytes (latin1 w.pdu)).mpr
    (blockOpensTo_sealBlock (b := bucketBlockSize w.pdu.length) hverify w.key.keyValid hreach
      (by rw [← length_codepoints_latin1 w.pdu]; exact hlt) hlen)
  have htake : ∀ blob : List UInt8,
      ((envelopeOf w.aad blob ++ extra).drop envelopeHeaderSize).take blob.length = blob := by
    intro blob
    rw [envelopeOf_eq_append, List.append_assoc, List.drop_left' (length_envelopeHeader _ _),
      List.take_left' rfl]
  rw [henvelope, openPdu, parseEnvelopeHeader_envelopeOf w.aad (by
    change (sealBlock H w.key.primes w.skFmt w.aad.toBytes _ _).length < _
    omega) extra, ok_bind]
  simp only [htake]
  rw [decryptBytesV8Key, hdec, mapErr_ok, ok_bind, collectBytes_latin1, ok_bind]
  rfl

/-- What `openPdu` does with the envelope of a blob. -/
theorem openPdu_envelopeOf {verify : TagCheck} {key : NapqesKey} {aad aad' : OtAad}
    {blob pdu : List UInt8} (hblob : blob.length < 2 ^ 32)
    (h : openPdu H verify (envelopeOf aad blob) key = .ok (aad', pdu)) :
    ∃ s, decryptBytesV8Key H verify blob key aad.toBytes = .ok s := by
  have hparse := parseEnvelopeHeader_envelopeOf aad hblob []
  have htake : ((envelopeOf aad blob).drop envelopeHeaderSize).take blob.length = blob := by
    rw [envelopeOf_eq_append, List.drop_left' (length_envelopeHeader _ _), List.take_length]
  rw [List.append_nil] at hparse
  rw [openPdu, hparse, ok_bind] at h
  simp only [htake] at h
  obtain ⟨s, hs, -⟩ := bind_eq_ok.mp h
  exact ⟨s, mapErr_eq_ok hs⟩

/-- An envelope opens under another key only if its tag is right under that key too. -/
theorem HonestWrap.tag_of_openPdu (w : HonestWrap H) {key : NapqesKey} {aad : OtAad}
    {pdu : List UInt8} (h : openPdu H (hmacVerify H) w.envelope key = .ok (aad, pdu)) :
    H w.skFmt w.tagInput = H (deriveFormatSubkey H key.sk formatBlockV8).toList w.tagInput := by
  obtain ⟨b, hb, henvelope⟩ := wrapPdu_eq_ok_iff.mp w.made
  obtain ⟨hreach, hlt, -⟩ := blockSize_spec hb
  obtain rfl := blockSize_bucket hb
  rw [← length_codepoints_latin1] at hlt
  have hblob := @length_sealBlock H w.key.primes w.skFmt w.aad.toBytes _ _ hlt
  have hsmall := hreach.le
  rw [length_codepoints_latin1] at hblob
  rw [henvelope] at h
  obtain ⟨s, hs⟩ := openPdu_envelopeOf (by
    change (sealBlock H w.key.primes w.skFmt w.aad.toBytes _ _).length < _
    omega) h
  have hopens := (decryptBytesV8Core_eq_ok_iff key.keyValid _ key.sk w.aad.toBytes s).mp hs
  rw [sealBlock, blockOpensTo_append_iff (FixedBytes.length_toList _)
    (FixedBytes.length_toList _)] at hopens
  apply FixedBytes.ext
  exact eq_of_beq hopens.1

/-! ## Authenticity -/

/-- An ideal MAC under every key: only the true tag of an input that `wrap_pdu` tagged under
the same key verifies. The check is named by the key with its primes, of which the code's tags see
the sub-key only: `idealBlockMac_perKey` derives it from a check by sub-keys. -/
structure IdealBlockMac (H : Hmac) (wraps : List (HonestWrap H)) (verify : NapqesKey → TagCheck) :
    Prop where
  sound : ∀ key input tag,
    verify key (deriveFormatSubkey H key.sk formatBlockV8).toList input tag = true →
    ∃ w ∈ wraps, w.key = key ∧ input = w.tagInput ∧ tag = (H w.skFmt input).toList

/-- The check that knows what was tagged: it accepts the true tags of a log of envelopes. -/
def logBlockVerify (wraps : List (HonestWrap H)) (key : NapqesKey) : TagCheck :=
  fun skFmt input tag => wraps.any fun w =>
    w.key = key && skFmt == w.skFmt && input == w.tagInput && tag == (H w.skFmt input).toList

theorem idealBlockMac_logBlockVerify (wraps : List (HonestWrap H)) :
    IdealBlockMac H wraps (logBlockVerify wraps) where
  sound key input tag h := by
    simp only [logBlockVerify, List.any_eq_true, Bool.and_eq_true, decide_eq_true_eq,
      beq_iff_eq] at h
    obtain ⟨w, hw, ⟨⟨hkey, -⟩, hinput⟩, htag⟩ := h
    exact ⟨w, hw, hkey, hinput, htag⟩

theorem logBlockVerify_self {wraps : List (HonestWrap H)} {w : HonestWrap H} (hw : w ∈ wraps) :
    logBlockVerify wraps w.key w.skFmt w.tagInput (H w.skFmt w.tagInput).toList = true := by
  simp only [logBlockVerify, List.any_eq_true]
  exact ⟨w, hw, by simp⟩

theorem authTagInput_inj {a b : List UInt8} {n n' c d : List UInt8} (hn : n.length = 16)
    (hn' : n'.length = 16) (ha : a.length < 2 ^ 64) (hb : b.length < 2 ^ 64)
    (h : authTagInput a n c = authTagInput b n' d) : a = b ∧ n = n' ∧ c = d := by
  obtain ⟨hnn, hrest⟩ := append_inj_of_length hn hn' (List.cons.inj h).2
  obtain ⟨hab, hcd⟩ := lenPrefixed_append_inj (w := 8) ha hb hrest
  exact ⟨hab, hnn, hcd⟩

/-- An envelope that opens under an ideal MAC was sealed with the same key, header and PDU. -/
theorem sealed_of_openPdu {wraps : List (HonestWrap H)} {verify : NapqesKey → TagCheck}
    (hmac : IdealBlockMac H wraps verify) {buf : List UInt8} {key : NapqesKey} {aad : OtAad}
    {pdu : List UInt8} (h : openPdu H (verify key) buf key = .ok (aad, pdu)) :
    ∃ w ∈ wraps, w.key = key ∧ w.aad = aad ∧ w.pdu = pdu ∧ w.envelope <+: buf := by
  obtain ⟨blob, s, e, hbuf, hdec, hpdu⟩ := openPdu_eq_ok h
  have hopens := (decryptBytesV8Core_eq_ok_iff key.keyValid blob key.sk aad.toBytes s).mp hdec
  obtain ⟨nonce, body, tag, b, cps, hopen⟩ := hopens
  obtain ⟨w, hw, rfl, hinput, htag⟩ := hmac.sound key _ tag hopen.tag_ok
  -- The tag input determines header, nonce and body, so the blob is the sealed one.
  obtain ⟨b', hb', henvelope⟩ := wrapPdu_eq_ok_iff.mp w.made
  obtain ⟨haad, hnonce, hbody⟩ := authTagInput_inj hopen.length_nonce
    (FixedBytes.length_toList _) (by simp) (by simp) hinput
  obtain rfl := OtAad.toBytes_inj haad
  obtain ⟨hreach, hlt, hmax⟩ := blockSize_spec hb'
  rw [blockSize_bucket hb'] at hreach hlt henvelope
  have hsealed : blob = sealBlock H w.key.primes w.skFmt w.aad.toBytes (latin1 w.pdu)
      (bucketBlockSize w.pdu.length) := by
    rw [hopen.split, htag, hinput, hnonce, hbody]
    rfl
  have hself : BlockOpensTo H w.key.primes w.skFmt (verify w.key) w.aad.toBytes blob
      (latin1 w.pdu).codepoints := by
    rw [hsealed]
    refine blockOpensTo_sealBlock ?_ w.key.keyValid hreach
      (by rw [length_codepoints_latin1]; exact hlt) ?_
    · have htagok := hopen.tag_ok
      rw [htag, hinput] at htagok
      exact htagok
    · rw [length_codepoints_latin1]
      simp only [padMaxExp, maxPlaintextCodepoints] at hmax ⊢
      omega
  have hmsg := BlockOpensTo.unique ⟨nonce, body, tag, b, cps, hopen⟩ hself
  refine ⟨w, hw, rfl, rfl, (eq_of_collectBytes hpdu hmsg).symm, ?_⟩
  rw [henvelope]
  exact hsealed ▸ hbuf

end Napqes.Rust
