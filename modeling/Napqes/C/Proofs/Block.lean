import Napqes.C.Block
import Napqes.C.Proofs.Tokens
import Napqes.Format.Block
import Napqes.Rust.Proofs.OtFrame

/-!
# The C block functions compute the block format

`napqes_encrypt_bytes_v8_profiled` returns `sealBlock` of the message read as Latin-1, for the
block size its profile chooses, and `NULL` where the profile refuses the message.
-/

namespace Napqes.C

variable {H : Hmac} {primes : List UInt64}

/-! ## Block sizes -/

/-- The profile the other ports use in place of a profile pointer. -/
def PadProfile.toRust : Option PadProfile → Rust.PadProfile
  | none => .bucket
  | some ⟨.bucket, _⟩ => .bucket
  | some ⟨.coarse, g⟩ => .coarse g
  | some ⟨.frame, f⟩ => .frame f

theorem bitLengthLoop_eq (v e : Nat) : bitLengthLoop v e = e + Rust.bitLength v := by
  induction v using Nat.strong_induction_on generalizing e with
  | _ v ih =>
      rw [bitLengthLoop]
      by_cases hv : v = 0
      · rw [if_pos hv, Rust.bitLength, if_pos hv, Nat.add_zero]
      · have hhalf : v >>> 1 = v / 2 := by rw [Nat.shiftRight_eq_div_pow, Nat.pow_one]
        rw [if_neg hv, hhalf, ih _ (by omega), Rust.bitLength, Rust.bitLength, if_neg hv]
        conv_rhs => rw [Nat.log2_def]
        by_cases htwo : 2 ≤ v
        · rw [if_neg (by omega), if_pos htwo]
          omega
        · rw [if_pos (by omega), if_neg htwo]

theorem frameExpLoop_two_pow (e fe : Nat) : frameExpLoop (2 ^ e) fe = fe + e := by
  induction e generalizing fe with
  | zero => rw [frameExpLoop, if_neg (by decide), Nat.add_zero]
  | succ e ih =>
      have hpos := Nat.two_pow_pos e
      have hhalf : 2 ^ (e + 1) >>> 1 = 2 ^ e := by
        rw [Nat.shiftRight_eq_div_pow, Nat.pow_one, Nat.pow_succ, Nat.mul_div_cancel _ (by decide)]
      rw [frameExpLoop, if_pos (by rw [Nat.pow_succ]; omega), hhalf, ih]
      omega

/-- `(f & (f - 1)) == 0` on a non-zero word. -/
theorem and_sub_one_eq_zero_iff {f : UInt32} (hf : f ≠ 0) :
    f &&& (f - 1) = 0 ↔ f.toNat.isPowerOfTwo := by
  have hne : f.toNat ≠ 0 := fun h => hf (UInt32.toNat_inj.mp h)
  have hsub : (f - 1).toNat = f.toNat - 1 := by
    apply UInt32.toNat_sub_of_le
    rw [UInt32.le_iff_toNat_le]
    show 1 ≤ f.toNat
    omega
  rw [← Nat.and_sub_one_eq_zero_iff_isPowerOfTwo hne, ← UInt32.toNat_inj, UInt32.toNat_and, hsub]
  rfl

/-- The two tests on a frame size accept the reachable ones. -/
theorem reachableBlock_of_frame (f : UInt32) :
    (¬ (f = 0 ∨ f &&& (f - 1) ≠ 0) ∧
      ¬ (frameExpLoop f.toNat 0 < padMinExp ∨ frameExpLoop f.toNat 0 > padMaxExp)) ↔
        Rust.ReachableBlock f.toNat := by
  constructor
  · rintro ⟨hpow, hexp⟩
    rw [not_or, not_not] at hpow
    obtain ⟨e, he⟩ := (and_sub_one_eq_zero_iff hpow.1).mp hpow.2
    rw [he, frameExpLoop_two_pow] at hexp
    simp only [padMinExp, padMaxExp] at hexp
    exact ⟨e, by simp only [Rust.padMinExp]; omega, by simp only [Rust.padMaxExp]; omega, he⟩
  · rintro ⟨e, hlo, hhi, he⟩
    have hne : f ≠ 0 := by
      rintro rfl
      have : (0 : Nat) = 2 ^ e := he
      exact absurd this (Nat.ne_of_lt (Nat.two_pow_pos e))
    rw [not_or, not_not, and_sub_one_eq_zero_iff hne, he, frameExpLoop_two_pow]
    simp only [Rust.padMinExp, Rust.padMaxExp] at hlo hhi
    refine ⟨⟨hne, e, rfl⟩, ?_⟩
    simp only [padMinExp, padMaxExp]
    omega

/-- `padding_block_size` gives the block size of the profile, and 0 where there is none. -/
theorem paddingBlockSize_eq {n : Nat} (hn : n < 2 ^ 16) (p : Option PadProfile) :
    paddingBlockSize n p = (((PadProfile.toRust p).blockSize n).toOption).getD 0 := by
  have hmax : ¬ n ≥ 1 <<< Rust.padMaxExp := by
    rw [Nat.shiftLeft_eq, Nat.one_mul]
    simp only [Rust.padMaxExp]
    omega
  have hexp : (if bitLengthLoop n 0 < padMinExp then padMinExp else bitLengthLoop n 0) =
      max (Rust.bitLength n) Rust.padMinExp := by
    rw [bitLengthLoop_eq, Nat.zero_add]
    by_cases hsmall : Rust.bitLength n < padMinExp
    · rw [if_pos hsmall]
      exact (Nat.max_eq_right (Nat.le_of_lt hsmall)).symm
    · rw [if_neg hsmall]
      exact (Nat.max_eq_left (Nat.le_of_not_lt hsmall)).symm
  unfold paddingBlockSize
  dsimp only
  rw [hexp]
  rcases p with _ | ⟨kind, param⟩
  · rw [PadProfile.toRust, Rust.PadProfile.blockSize, if_neg hmax]
    rfl
  · cases kind with
    | bucket =>
        rw [PadProfile.toRust, Rust.PadProfile.blockSize, if_neg hmax]
        rfl
    | coarse =>
        rw [PadProfile.toRust, Rust.PadProfile.blockSize, if_neg hmax]
        dsimp only
        by_cases hg : param.toNat = 0 ∨ (padMaxExp - padMinExp) % param.toNat ≠ 0
        · have hg' : param.toNat = 0 ∨ (Rust.padMaxExp - Rust.padMinExp) % param.toNat ≠ 0 := hg
          rw [if_pos hg, if_pos hg']
          rfl
        · have hg' : ¬ (param.toNat = 0 ∨
              (Rust.padMaxExp - Rust.padMinExp) % param.toNat ≠ 0) := hg
          rw [if_neg hg, if_neg hg']
          rfl
    | frame =>
        have hok := Rust.blockSize_frame_eq_ok_iff param n
        have htest := reachableBlock_of_frame param
        by_cases hfit : Rust.ReachableBlock param.toNat ∧ n < param.toNat
        · obtain ⟨hpow, hexps⟩ := htest.mpr hfit.1
          rw [PadProfile.toRust, (hok param.toNat).mpr ⟨hn, hfit.1, hfit.2, rfl⟩]
          dsimp only
          rw [if_neg hpow, if_neg hexps, if_neg (Nat.not_le.mpr hfit.2)]
          rfl
        · have herr : ((Rust.PadProfile.frame param).blockSize n).toOption = none := by
            rw [Option.eq_none_iff_forall_ne_some]
            intro b hb
            obtain ⟨-, hreach, hlt, -⟩ := (hok b).mp (toOption_eq_some.mp hb)
            exact hfit ⟨hreach, hlt⟩
          rw [PadProfile.toRust, herr]
          dsimp only
          split
          case isTrue => rfl
          case isFalse hpow =>
            split
            case isTrue => rfl
            case isFalse hexps =>
              rw [if_pos (Nat.le_of_not_lt fun hlt => hfit ⟨htest.mp ⟨hpow, hexps⟩, hlt⟩)]
              rfl

/-! ## Encryption -/

/-- The padded codepoints are those of the format. -/
theorem padMessage_eq_ok {msg : List Nat} (kb nonce : List UInt8) {b : Nat}
    (hlen : msg.length ≤ 0xFFFF) (hlt : msg.length < b) :
    padMessage H msg kb nonce b = .ok (Rust.padded H msg kb nonce b) := by
  have hpad : derivePadChar H kb nonce = Rust.derivePadChar H kb nonce :=
    funext (derivePadChar_eq H kb nonce)
  rw [padMessage]
  dsimp only
  rw [if_neg (Nat.not_lt.mpr hlen), if_neg (Nat.not_le.mpr hlt), hpad, Rust.padded]

theorem encryptCoreDetV8_eq (hkey : KeyValid (primesNat primes)) {msg : List Nat}
    (skFmt nonce : List UInt8) (p : Option PadProfile) (hlen : msg.length ≤ 0xFFFF) :
    encryptCoreDetV8 H msg primes skFmt nonce p =
      ofOption (((PadProfile.toRust p).blockSize msg.length).toOption.map fun b =>
        (tokensOf H (primesNat primes) skFmt nonce
          (Rust.padded H msg skFmt nonce b)).flatMap (beBytes 8)) := by
  have hne := length_primes_ne_zero hkey
  have hblock := paddingBlockSize_eq (n := msg.length) (by omega) p
  rw [encryptCoreDetV8, if_neg hne]
  dsimp only
  cases hsize : (PadProfile.toRust p).blockSize msg.length with
  | error e =>
      rw [hsize] at hblock
      change paddingBlockSize msg.length p = 0 at hblock
      rw [if_pos hblock]
      rfl
  | ok b =>
      obtain ⟨-, hlt, -⟩ := Rust.blockSize_spec hsize
      rw [hsize] at hblock
      change paddingBlockSize msg.length p = b at hblock
      rw [hblock, if_neg (by omega), padMessage_eq_ok skFmt nonce hlen hlt, ok_bind,
        emitTokensV8_eq_ok H skFmt nonce hkey]
      rfl

/-- A buffer with a terminator after `bytes`. -/
theorem strlen_append {bytes : List UInt8} (hbytes : ∀ b ∈ bytes, b ≠ 0) (rest : List UInt8) :
    strlen (bytes ++ 0 :: rest) = .ok bytes.length := by
  have hfind : (bytes ++ 0 :: rest).findIdx? (· == 0) = some bytes.length := by
    induction bytes with
    | nil => simp [List.findIdx?_cons]
    | cons b bytes ih =>
        have hb : b ≠ 0 := hbytes b (by simp)
        rw [List.cons_append, List.findIdx?_cons, if_neg (by simpa using hb),
          ih fun c hc => hbytes c (by simp [hc])]
        rfl
  rw [strlen, hfind]

/-- The hand-written encoding of a byte is the UTF-8 encoding of its Latin-1 character. -/
theorem utf8EncodeChar_ofUInt8 (b : UInt8) :
    String.utf8EncodeChar (Char.ofUInt8 b) = utf8Bytes b.toNat := by
  have hall : ∀ n < 256, String.utf8EncodeChar (Char.ofUInt8 (UInt8.ofNat n)) = utf8Bytes n := by
    decide +kernel
  simpa using hall b.toNat b.toNat_lt

theorem flatMap_utf8Bytes (bytes : List UInt8) :
    (bytes.map UInt8.toNat).flatMap utf8Bytes = (Rust.latin1 bytes).asBytes := by
  rw [Rust.latin1, Str.asBytes, List.flatMap_map, List.flatMap_map]
  exact congrArg (fun f => bytes.flatMap f) (funext fun b => (utf8EncodeChar_ofUInt8 b).symm)

theorem deriveFormatSubkey_block (sk : FixedBytes skSize) :
    deriveFormatSubkey H sk formatBlockV8 = Rust.deriveFormatSubkey H sk Rust.formatBlockV8 := rfl

theorem syntheticNonce_eq (skFmt aad message : List UInt8) :
    syntheticNonce H skFmt aad message = Rust.syntheticNonce H skFmt aad message := by
  rw [syntheticNonce, Rust.syntheticNonce, Rust.syntheticNonceInput]
  simp only [beLenPrefix_eq]
  rfl

theorem computeAuthTag_append (skFmt aad : List UInt8) (nonce : FixedBytes nonceSize)
    (masked : List UInt8) :
    computeAuthTag H skFmt aad (nonce.toList ++ masked) aadLenWidthV8 =
      H skFmt (Rust.authTagInput aad nonce.toList masked) := by
  rw [computeAuthTag, List.take_left' nonce.length_toList, List.drop_left' nonce.length_toList,
    beLenPrefix_eq]
  rfl

/-- Masking and tagging the token blob of a codepoint sequence. -/
theorem seal_blob_eq_ok (skFmt aad : List UInt8) (nonce : FixedBytes nonceSize) {cps : List Nat}
    (hlen : cps.length ≤ 65538) :
    (do
      let blob := (tokensOf H (primesNat primes) skFmt nonce.toList cps).flatMap (beBytes 8)
      let ks ← varintKeystreamAlloc H skFmt nonce.toList blob.length
      let blob := xorBytes blob ks
      let payload := nonce.toList ++ blob
      let tag := computeAuthTag H skFmt aad payload aadLenWidthV8
      return payload ++ tag.toList : CM (List UInt8)) =
      .ok (nonce.toList ++ sealTokens H skFmt nonce.toList (primesNat primes) cps ++
        (H skFmt (Rust.authTagInput aad nonce.toList
          (sealTokens H skFmt nonce.toList (primesNat primes) cps))).toList) := by
  have hblob : ((tokensOf H (primesNat primes) skFmt nonce.toList cps).flatMap
      (beBytes 8)).length ≤ 32 * (2 ^ 32 - 1) := by
    rw [length_flatMap_beBytes, length_tokensOf]
    omega
  obtain ⟨ks, hks, hmask⟩ := exists_varintKeystreamAlloc H skFmt nonce.toList _ hblob
  dsimp only
  rw [hks, ok_bind, hmask, computeAuthTag_append, sealTokens]
  rfl

/-- Encryption of a terminated string of at most 65535 bytes, read as Latin-1. -/
theorem napqesEncryptBytesV8Profiled_eq (hkey : KeyValid (primesNat primes))
    {bytes : List UInt8} (hbytes : ∀ b ∈ bytes, b ≠ 0) (hlen : bytes.length ≤ 65535)
    (rest : List UInt8) (sk : FixedBytes skSize) (aad : List UInt8) (p : Option PadProfile) :
    napqesEncryptBytesV8Profiled H (bytes ++ 0 :: rest) primes sk aad p =
      ofOption (((PadProfile.toRust p).blockSize bytes.length).toOption.map
        (sealBlock H (primesNat primes) (Rust.deriveFormatSubkey H sk Rust.formatBlockV8).toList
          aad (Rust.latin1 bytes))) := by
  have hvalid : ¬ (!validateKey primes) = true := by simp [(validateKey_iff primes).mpr hkey]
  have hcps : bytes.map UInt8.toNat = (Rust.latin1 bytes).codepoints :=
    (Rust.codepoints_latin1 bytes).symm
  have hlong : ¬ bytes.length > 0xFFFF := Nat.not_lt.mpr hlen
  rw [napqesEncryptBytesV8Profiled, if_neg hvalid, strlen_append hbytes, ok_bind, if_neg hlong,
    List.take_left' rfl]
  dsimp only
  rw [flatMap_utf8Bytes, deriveFormatSubkey_block, syntheticNonce_eq, hcps,
    encryptCoreDetV8_eq hkey _ _ p (by rw [Rust.length_codepoints_latin1]; exact hlen),
    Rust.length_codepoints_latin1]
  cases hsize : (PadProfile.toRust p).blockSize bytes.length with
  | error e => rfl
  | ok b =>
      obtain ⟨hreach, hlt, -⟩ := Rust.blockSize_spec hsize
      have hle := hreach.le
      have hbody := @Rust.length_padded H (Rust.latin1 bytes).codepoints
        (Rust.deriveFormatSubkey H sk Rust.formatBlockV8).toList
        (Rust.syntheticNonce H (Rust.deriveFormatSubkey H sk Rust.formatBlockV8).toList aad
          (Rust.latin1 bytes).asBytes).toList b
        (by rw [Rust.length_codepoints_latin1]; exact hlt)
      have hseal := @seal_blob_eq_ok H primes
        (Rust.deriveFormatSubkey H sk Rust.formatBlockV8).toList aad
        (Rust.syntheticNonce H (Rust.deriveFormatSubkey H sk Rust.formatBlockV8).toList aad
          (Rust.latin1 bytes).asBytes) _ (by rw [hbody]; omega)
      rw [Except.toOption, Option.map_some, Option.map_some, ofOption_some, ofOption_some, ok_bind,
        sealBlock, blockTagInput, blockBody]
      exact hseal

end Napqes.C
