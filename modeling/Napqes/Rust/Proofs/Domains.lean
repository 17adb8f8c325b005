import Napqes.Rust.Proofs.Tokens

/-!
# The HMAC inputs under one subkey are injectively encoded

A `Derivation` is one use of HMAC under a format subkey, with every parameter of that use. Its
input starts with the domain byte; the fields behind it have fixed widths, except for the
associated data, which carries its length, and the last field.
-/

namespace Napqes.Rust

/-- The uses of HMAC under a format subkey. Position counters are below `2^40`, the bound that
`be5` asserts; the other indices are `u32` and the codepoint count is a `u64`. -/
inductive Derivation where
  | noisePos (nonce : FixedBytes nonceSize) (ctPos : Fin (2 ^ 40))
  | addend (nonce : FixedBytes nonceSize) (realIdx : Fin (2 ^ 40))
  | threshold (nonce : FixedBytes nonceSize)
  | authTag (aad : Slice) (nonce : FixedBytes nonceSize) (maskedBlob : List UInt8)
  | noiseChar (nonce : FixedBytes nonceSize) (ctPos : Fin (2 ^ 40))
  | noiseAddend (nonce : FixedBytes nonceSize) (ctPos : Fin (2 ^ 40))
  | pad (nonce : FixedBytes nonceSize) (i : UInt32)
  | keystream (nonce : FixedBytes nonceSize) (block : UInt32)
  | syntheticNonce (aad : Slice) (message : List UInt8)
  | chunkTag (f : UInt32) (nonce : FixedBytes nonceSize) (chunkIdx : UInt32) (aad : Slice)
      (maskedChunk : List UInt8)
  | sentinelTag (f : UInt32) (nonce : FixedBytes nonceSize) (chunkCount : UInt32) (aad : Slice)
      (totalRealCps : UInt64)
  | subNonce (nonce : FixedBytes nonceSize) (chunkIdx : UInt32)
  | countMask (f : UInt32) (nonce : FixedBytes nonceSize) (chunkCount : UInt32)

namespace Derivation

/-- The bytes a derivation feeds to HMAC. -/
def hmacInput : Derivation → List UInt8
  | noisePos nonce ctPos => noisePosInput nonce ctPos
  | addend nonce realIdx => addendInput nonce realIdx
  | threshold nonce => thresholdInput nonce
  | authTag aad nonce maskedBlob => authTagInput aad.bytes nonce maskedBlob
  | noiseChar nonce ctPos => noiseCharInput nonce ctPos
  | noiseAddend nonce ctPos => noiseAddendInput nonce ctPos
  | pad nonce i => padInput nonce i.toNat
  | keystream nonce block => keystreamInput nonce block.toNat
  | syntheticNonce aad message => syntheticNonceInput aad.bytes message
  | chunkTag f nonce chunkIdx aad maskedChunk =>
      chunkTagInput f.toNat nonce chunkIdx.toNat aad.bytes maskedChunk
  | sentinelTag f nonce chunkCount aad totalRealCps =>
      sentinelTagInput f.toNat nonce chunkCount.toNat aad.bytes totalRealCps.toNat
  | subNonce nonce chunkIdx => subNonceInput nonce chunkIdx.toNat
  | countMask f nonce chunkCount => countMaskInput f.toNat nonce chunkCount.toNat

/-- The domain byte of a derivation. -/
def domain : Derivation → UInt8
  | noisePos .. => 0x00
  | addend .. => 0x01
  | threshold .. => 0x02
  | authTag .. => 0x03
  | noiseChar .. => 0x04
  | noiseAddend .. => 0x05
  | pad .. => 0x06
  | keystream .. => 0x07
  | syntheticNonce .. => 0x0A
  | chunkTag .. => 0x0C
  | sentinelTag .. => 0x0D
  | subNonce .. => 0x0E
  | countMask .. => 0x0F

/-- What HMAC returns for a derivation under a format subkey. -/
def digest (d : Derivation) (H : Hmac) (skFmt : List UInt8) : FixedBytes 32 := H skFmt d.hmacInput

theorem hmacInput_eq_cons (d : Derivation) : ∃ body, d.hmacInput = d.domain :: body := by
  cases d <;> exact ⟨_, rfl⟩

end Derivation

/-! ## What the code hashes -/

/-- Each value that the code derives under a format subkey is read off one digest, the one of the
derivation with these parameters; the keystream is the digests of its blocks. -/
structure ReadsDigests (H : Hmac) (skFmt : List UInt8) : Prop where
  isNoisePosV8 : ∀ (nonce : FixedBytes nonceSize) (ctPos : Fin (2 ^ 40)) theta,
    isNoisePosV8 H skFmt nonce ctPos theta =
      decide (u64FromBe8 ((Derivation.noisePos nonce ctPos).digest H skFmt) < theta)
  deriveAddend : ∀ (nonce : FixedBytes nonceSize) (realIdx : Fin (2 ^ 40)) keyElement,
    (deriveAddend H skFmt nonce realIdx keyElement : RustM String Nat) =
      addendOf ((Derivation.addend nonce realIdx).digest H skFmt) keyElement
  deriveNoiseThresholdV8 : ∀ nonce : FixedBytes nonceSize,
    deriveNoiseThresholdV8 H skFmt nonce = thetaMin +
      (u64FromBe8 ((Derivation.threshold nonce).digest H skFmt) * (thetaMax - thetaMin)) >>> 64
  computeAuthTag : ∀ (aad : Slice) (nonce : FixedBytes nonceSize) maskedBlob,
    computeAuthTag H skFmt aad.bytes (nonce.toList ++ maskedBlob) =
      (Derivation.authTag aad nonce maskedBlob).digest H skFmt
  deriveNoiseChar : ∀ (nonce : FixedBytes nonceSize) (ctPos : Fin (2 ^ 40)),
    deriveNoiseChar H skFmt nonce ctPos =
      u32FromBe4 ((Derivation.noiseChar nonce ctPos).digest H skFmt) % noiseAlphabet +
        asciiPrintableBase
  deriveNoiseTokenAddend : ∀ (nonce : FixedBytes nonceSize) (ctPos : Fin (2 ^ 40)) keyElement,
    (deriveNoiseTokenAddend H skFmt nonce ctPos keyElement : RustM String Nat) =
      addendOf ((Derivation.noiseAddend nonce ctPos).digest H skFmt) keyElement
  derivePadChar : ∀ (nonce : FixedBytes nonceSize) (i : UInt32),
    derivePadChar H skFmt nonce i.toNat =
      u32FromBe4 ((Derivation.pad nonce i).digest H skFmt) % padAlphabet + asciiPrintableBase
  deriveStreamV8FillerCp : ∀ (subNonce : FixedBytes nonceSize) (fillIdx : UInt32),
    deriveStreamV8FillerCp H skFmt subNonce fillIdx.toNat =
      u32FromBe4 ((Derivation.pad subNonce fillIdx).digest H skFmt) % padAlphabet +
        asciiPrintableBase
  varintKeystream : ∀ (nonce : FixedBytes nonceSize), ∀ length ≤ 32 * (2 ^ 32 - 1),
    (varintKeystream H skFmt nonce length : RustM String (List UInt8)) =
      .ok (counterStream
        (fun block => (Derivation.keystream nonce (.ofNat block)).digest H skFmt) length)
  syntheticNonce : ∀ (aad : Slice) message,
    syntheticNonce H skFmt aad.bytes message =
      ((Derivation.syntheticNonce aad message).digest H skFmt).take nonceSize (by decide)
  computeStreamV8ChunkTag : ∀ (f : UInt32) (nonce : FixedBytes nonceSize) (chunkIdx : UInt32)
    (aad : Slice) maskedChunk,
    computeStreamV8ChunkTag H skFmt f.toNat nonce chunkIdx.toNat aad.bytes maskedChunk =
      (Derivation.chunkTag f nonce chunkIdx aad maskedChunk).digest H skFmt
  computeStreamV8SentinelTag : ∀ (f : UInt32) (nonce : FixedBytes nonceSize)
    (chunkCount : UInt32) (aad : Slice) (totalRealCps : UInt64),
    computeStreamV8SentinelTag H skFmt f.toNat nonce chunkCount.toNat aad.bytes
        totalRealCps.toNat =
      (Derivation.sentinelTag f nonce chunkCount aad totalRealCps).digest H skFmt
  deriveStreamV8SubNonce : ∀ (nonce : FixedBytes nonceSize) (chunkIdx : UInt32),
    deriveStreamV8SubNonce H skFmt nonce chunkIdx.toNat =
      ((Derivation.subNonce nonce chunkIdx).digest H skFmt).take nonceSize (by decide)
  streamV8CountMask : ∀ (f : UInt32) (nonce : FixedBytes nonceSize) (chunkCount : UInt32),
    streamV8CountMask H skFmt f.toNat nonce chunkCount.toNat =
      u64FromBe8 ((Derivation.countMask f nonce chunkCount).digest H skFmt)

theorem readsDigests (H : Hmac) (skFmt : List UInt8) : ReadsDigests H skFmt where
  isNoisePosV8 _ _ _ := rfl
  deriveAddend _ _ _ := rfl
  deriveNoiseThresholdV8 _ := rfl
  computeAuthTag aad nonce maskedBlob := by
    rw [Rust.computeAuthTag, List.take_left' nonce.length_toList,
      List.drop_left' nonce.length_toList]
    rfl
  deriveNoiseChar _ _ := rfl
  deriveNoiseTokenAddend _ _ _ := rfl
  derivePadChar _ _ := rfl
  deriveStreamV8FillerCp _ _ := rfl
  varintKeystream nonce length hlen := by
    -- Every block number is one that the `u32` counter has.
    have hblock : ∀ block ∈ List.range ((length + 32 - 1) / 32),
        ((Derivation.keystream nonce (.ofNat block)).digest H skFmt).toList =
          (H skFmt (keystreamInput nonce block)).toList := by
      intro block hmem
      have hlt : block < 2 ^ 32 := by
        have hlen := List.mem_range.mp hmem
        omega
      rw [Derivation.digest, Derivation.hmacInput, UInt32.toNat_ofNat_of_lt' hlt]
    rw [varintKeystream_eq_ok H skFmt nonce hlen, keystream, counterStream, counterStream,
      List.flatMap_congr hblock]
  syntheticNonce _ _ := rfl
  computeStreamV8ChunkTag _ _ _ _ _ := rfl
  computeStreamV8SentinelTag _ _ _ _ _ := rfl
  deriveStreamV8SubNonce _ _ := rfl
  streamV8CountMask _ _ _ := rfl

/-! ## Fields -/

theorem nonce_append_inj {n n' : FixedBytes nonceSize} {a b : List UInt8}
    (h : n.toList ++ a = n'.toList ++ b) : n = n' ∧ a = b := by
  obtain ⟨hn, hrest⟩ := append_inj_of_length n.length_toList n'.length_toList h
  exact ⟨FixedBytes.ext hn, hrest⟩

theorem be5_inj {i j : Fin (2 ^ 40)} (h : be5 i = be5 j) : i = j := by
  rw [be5_eq, be5_eq] at h
  have hi : (i : Nat) < 256 ^ 5 := i.isLt
  have hj : (j : Nat) < 256 ^ 5 := j.isLt
  exact Fin.ext (beBytes_inj hi hj h)

theorem u32_inj {i j : UInt32} (h : beBytes 4 i.toNat = beBytes 4 j.toNat) : i = j :=
  UInt32.toNat_inj.mp (beBytes_inj (w := 4) i.toNat_lt j.toNat_lt h)

theorem u64_inj {i j : UInt64} (h : beBytes 8 i.toNat = beBytes 8 j.toNat) : i = j :=
  UInt64.toNat_inj.mp (beBytes_inj (w := 8) i.toNat_lt j.toNat_lt h)

/-- The length in front of the associated data says where the last field starts. -/
theorem aad_append_inj {a b : Slice} {c d : List UInt8}
    (h : beLenPrefix a.bytes.length ++ (a.bytes ++ c) =
      beLenPrefix b.bytes.length ++ (b.bytes ++ d)) : a = b ∧ c = d := by
  obtain ⟨hab, hcd⟩ := lenPrefixed_append_inj (w := 8) a.length_lt b.length_lt h
  exact ⟨Slice.ext hab, hcd⟩

theorem header_append_inj {f f' : Nat} {n n' : FixedBytes nonceSize} {a b : List UInt8}
    (hf : f < 2 ^ 32) (hf' : f' < 2 ^ 32)
    (h : streamV8Header f n ++ a = streamV8Header f' n' ++ b) : f = f' ∧ n = n' ∧ a = b := by
  simp only [streamV8Header, List.cons_append, List.append_assoc, List.cons.injEq,
    true_and] at h
  obtain ⟨hff, hrest⟩ := beBytes_append_inj (w := 4) hf hf' h
  obtain ⟨hn, hab⟩ := nonce_append_inj hrest
  exact ⟨hff, hn, hab⟩

/-- Header, chunk number and associated data in front of the last field of both stream tags. -/
theorem streamTag_inj {f f' idx idx' : Nat} {n n' : FixedBytes nonceSize} {a b : Slice}
    {c d : List UInt8} (hf : f < 2 ^ 32) (hf' : f' < 2 ^ 32) (hidx : idx < 2 ^ 32)
    (hidx' : idx' < 2 ^ 32)
    (h : streamV8Header f n ++ (beBytes 4 idx ++
        (beLenPrefix a.bytes.length ++ (a.bytes ++ c))) =
      streamV8Header f' n' ++ (beBytes 4 idx' ++
        (beLenPrefix b.bytes.length ++ (b.bytes ++ d)))) :
    f = f' ∧ n = n' ∧ idx = idx' ∧ a = b ∧ c = d := by
  obtain ⟨hff, hn, hrest⟩ := header_append_inj hf hf' h
  obtain ⟨hii, hrest⟩ := beBytes_append_inj (w := 4) hidx hidx' hrest
  obtain ⟨hab, hcd⟩ := aad_append_inj hrest
  exact ⟨hff, hn, hii, hab, hcd⟩

/-! ## Injectivity -/

/-- Two derivations with the same HMAC input are the same derivation: same domain, same
nonce, counter, associated data, body, frame size, chunk index and count. These are the inputs that
the code hashes. -/
theorem hmacInput_injective :
    Function.Injective Derivation.hmacInput ∧ ∀ H skFmt, ReadsDigests H skFmt := by
  refine ⟨?_, readsDigests⟩
  intro d d' h
  -- The first byte is the domain, so only equal constructors are left to compare.
  have hdomain : d.domain = d'.domain := by
    obtain ⟨body, hd⟩ := d.hmacInput_eq_cons
    obtain ⟨body', hd'⟩ := d'.hmacInput_eq_cons
    rw [hd, hd'] at h
    exact (List.cons.inj h).1
  cases d <;> cases d' <;>
    first
    | (simp only [Derivation.domain] at hdomain; exact absurd hdomain (by decide))
    | skip
  all_goals simp only [Derivation.hmacInput] at h
  case noisePos.noisePos =>
    obtain ⟨rfl, hpos⟩ := nonce_append_inj (List.cons.inj h).2
    rw [be5_inj hpos]
  case addend.addend =>
    obtain ⟨rfl, hidx⟩ := nonce_append_inj (List.cons.inj h).2
    rw [be5_inj hidx]
  case threshold.threshold => rw [FixedBytes.ext (List.cons.inj h).2]
  case authTag.authTag =>
    obtain ⟨rfl, hrest⟩ := nonce_append_inj (List.cons.inj h).2
    obtain ⟨rfl, rfl⟩ := aad_append_inj hrest
    rfl
  case noiseChar.noiseChar =>
    obtain ⟨rfl, hpos⟩ := nonce_append_inj (List.cons.inj h).2
    rw [be5_inj hpos]
  case noiseAddend.noiseAddend =>
    obtain ⟨rfl, hpos⟩ := nonce_append_inj (List.cons.inj h).2
    rw [be5_inj hpos]
  case pad.pad =>
    obtain ⟨rfl, hi⟩ := nonce_append_inj (List.cons.inj h).2
    rw [u32_inj hi]
  case keystream.keystream =>
    obtain ⟨rfl, hblock⟩ := nonce_append_inj (List.cons.inj h).2
    rw [u32_inj hblock]
  case syntheticNonce.syntheticNonce =>
    obtain ⟨rfl, rfl⟩ := aad_append_inj (List.cons.inj h).2
    rfl
  case chunkTag.chunkTag =>
    obtain ⟨hf, rfl, hidx, rfl, rfl⟩ := streamTag_inj (UInt32.toNat_lt _) (UInt32.toNat_lt _)
      (UInt32.toNat_lt _) (UInt32.toNat_lt _) (List.cons.inj h).2
    rw [UInt32.toNat_inj.mp hf, UInt32.toNat_inj.mp hidx]
  case sentinelTag.sentinelTag =>
    obtain ⟨hf, rfl, hcount, rfl, htotal⟩ := streamTag_inj (UInt32.toNat_lt _)
      (UInt32.toNat_lt _) (UInt32.toNat_lt _) (UInt32.toNat_lt _) (List.cons.inj h).2
    rw [UInt32.toNat_inj.mp hf, UInt32.toNat_inj.mp hcount, u64_inj htotal]
  case subNonce.subNonce =>
    obtain ⟨rfl, hidx⟩ := nonce_append_inj (List.cons.inj h).2
    rw [u32_inj hidx]
  case countMask.countMask =>
    obtain ⟨hf, rfl, hcount⟩ := header_append_inj (UInt32.toNat_lt _) (UInt32.toNat_lt _)
      (List.cons.inj h).2
    rw [UInt32.toNat_inj.mp hf, u32_inj hcount]

end Napqes.Rust
