import Napqes.Agreement
import Napqes.C.Proofs.BlockDecrypt

/-!
# What the C port delivers of a message from another port

The C port returns bytes up to a `NUL`, the other ports exchange sequences of scalar values.
-/

namespace Napqes

variable {mathSqrt : Nat → Nat} {primes : List Nat}

/-- A ciphertext of the Rust or the Python port, for some padding profile. -/
def EncryptsV8 (H : Hmac) (mathSqrt : Nat → Nat) (message : Str) (primes : List Nat)
    (sk : FixedBytes 32) (aad ciphertext : List UInt8) : Prop :=
  (∃ profile, Rust.encryptBytesV8WithProfile H message primes sk aad profile = .ok ciphertext) ∨
    ∃ profile, Python.encryptBytesV8 H mathSqrt message.codepoints primes sk.toList aad profile =
      .ok ciphertext

theorem EncryptsV8.opens {H : Hmac} {message : Str} {sk : FixedBytes 32} {aad : Slice}
    {ciphertext : List UInt8} (hkey : KeyValid primes)
    (hpy : Python.validateKey mathSqrt primes = .ok ⟨⟩)
    (h : EncryptsV8 H mathSqrt message primes sk aad.bytes ciphertext) :
    BlockOpensTo H primes (Rust.deriveFormatSubkey H sk Rust.formatBlockV8).toList
      (Rust.hmacVerify H) aad.bytes ciphertext message.codepoints := by
  have hseal : ∃ (profile : Rust.PadProfile) (b : Nat),
      profile.blockSize message.codepoints.length = .ok b ∧ ciphertext =
        sealBlock H primes (Rust.deriveFormatSubkey H sk Rust.formatBlockV8).toList aad.bytes
          message b := by
    rcases h with ⟨profile, henc⟩ | ⟨profile, henc⟩
    · obtain ⟨-, b, hb, rfl⟩ := (Rust.encryptBytesV8WithProfile_eq_ok_iff _ _ _ _ _).mp henc
      exact ⟨profile, b, hb, rfl⟩
    · obtain ⟨p, rfl⟩ := Python.exists_ofRust_of_encryptBytesV8 henc
      obtain ⟨b, hb, rfl⟩ := (Python.encryptBytesV8_eq_ok_iff H hpy hkey message sk aad.length_lt p
        _).mp henc
      exact ⟨p, b, hb, rfl⟩
  obtain ⟨profile, b, hb, rfl⟩ := hseal
  obtain ⟨hreach, hlt, hmax⟩ := Rust.blockSize_spec hb
  refine blockOpensTo_sealBlock (Rust.hmacVerify_self H _ _) hkey hreach hlt ?_
  simp only [Rust.padMaxExp, Rust.maxPlaintextCodepoints] at hmax ⊢
  omega

/-- The C decryptor returns `NULL`, or its caller receives the whole message. -/
def DeliversV8 (H : Hmac) (ciphertext : List UInt8) (primes : List Nat) (sk : FixedBytes 32)
    (aad : List UInt8) (message : Str) : Prop :=
  C.napqesDecryptBytesV8 H ciphertext (primes.map UInt64.ofNat) sk aad = C.null ∨
    ∃ buffer, C.napqesDecryptBytesV8 H ciphertext (primes.map UInt64.ofNat) sk aad = .ok buffer ∧
      (C.cString buffer).map UInt8.toNat = message.codepoints

/-- What the C decryptor does with a ciphertext of another port. -/
theorem EncryptsV8.napqesDecryptBytesV8_eq {H : Hmac} {message : Str} {sk : FixedBytes 32}
    {aad : Slice} {ciphertext : List UInt8} (hkey : KeyValid primes)
    (hpy : Python.validateKey mathSqrt primes = .ok ⟨⟩)
    (h : EncryptsV8 H mathSqrt message primes sk aad.bytes ciphertext) :
    C.napqesDecryptBytesV8 H ciphertext (primes.map UInt64.ofNat) sk aad.bytes =
      C.writeChars message.codepoints := by
  have hprimes := C.primesNat_ofNat hkey
  have hopens := h.opens hkey hpy
  rw [← hprimes] at hkey hopens
  exact C.napqesDecryptBytesV8_of_opens hkey hopens

/-- `napqes_decrypt_bytes_v8` returns `NULL` or, as a C string, the whole message that Rust or
Python encrypted, exactly if the message has no `U+0000` or has a codepoint that is no byte. -/
theorem deliversV8_iff (H : Hmac) (mathSqrt : Nat → Nat) (primes : List Nat)
    (hrust : Rust.validateKey primes = .ok ⟨⟩)
    (hpy : Python.validateKey mathSqrt primes = .ok ⟨⟩) (sk : FixedBytes 32) (aad : Slice)
    (message : Str) (ciphertext : List UInt8)
    (hct : EncryptsV8 H mathSqrt message primes sk aad.bytes ciphertext) :
    DeliversV8 H ciphertext primes sk aad.bytes message ↔
      (∀ c ∈ message.codepoints, c ≠ 0) ∨ ∃ c ∈ message.codepoints, c > 0xFF := by
  rw [DeliversV8, hct.napqesDecryptBytesV8_eq ((Rust.validateKey_iff primes).mp hrust) hpy,
    C.writeChars_eq]
  by_cases hbytes : ∀ c ∈ message.codepoints, c ≤ 0xFF
  · rw [if_pos hbytes]
    constructor
    · rintro (hnull | ⟨buffer, hok, hstring⟩)
      · cases hnull
      · cases hok
        exact Or.inl ((C.cString_map_ofNat_iff hbytes).mp hstring)
    · rintro (hne | ⟨c, hc, hwide⟩)
      · exact Or.inr ⟨_, rfl, (C.cString_map_ofNat_iff hbytes).mpr hne⟩
      · exact absurd (hbytes c hc) (Nat.not_le.mpr hwide)
  · rw [if_neg hbytes]
    refine iff_of_true (Or.inl rfl) (Or.inr ?_)
    push Not at hbytes
    exact hbytes

/-- Every string has a ciphertext under the bucket profile. -/
theorem exists_encryptsV8 {message : Str} (h : message.codepoints.length < 16) :
    ∃ ciphertext,
      EncryptsV8 zeroHmac Nat.sqrt message [1000003] (.ofList 32 []) [7] ciphertext := by
  have hb : Rust.PadProfile.blockSize .bucket message.codepoints.length = .ok 16 := by
    interval_cases message.codepoints.length <;> rfl
  exact ⟨_, Or.inl ⟨.bucket, (Rust.encryptBytesV8WithProfile_eq_ok_iff _ _ _ _ _).mpr
    ⟨keyValid_1000003, 16, hb, rfl⟩⟩⟩

theorem deliversV8_two_chars :
    ∃ ciphertext, EncryptsV8 zeroHmac Nat.sqrt ['h', 'é'] [1000003] (.ofList 32 []) [7] ciphertext ∧
      DeliversV8 zeroHmac ciphertext [1000003] (.ofList 32 []) [7] ['h', 'é'] := by
  obtain ⟨ciphertext, hct⟩ := @exists_encryptsV8 ['h', 'é'] (by decide)
  exact ⟨ciphertext, hct, (deliversV8_iff zeroHmac Nat.sqrt [1000003] Rust.validateKey_1000003
    Python.validateKey_1000003 (.ofList 32 []) ⟨[7], by decide⟩ ['h', 'é'] ciphertext hct).mpr
    (Or.inl (by decide))⟩

/-- The caller receives `a` for a message `a`, `U+0000`, `b`. -/
theorem not_deliversV8_nul :
    ∃ ciphertext, EncryptsV8 zeroHmac Nat.sqrt ['a', '\x00', 'b'] [1000003] (.ofList 32 []) [7]
        ciphertext ∧
      (∃ buffer, C.napqesDecryptBytesV8 zeroHmac ciphertext [1000003] (.ofList 32 []) [7] =
        .ok buffer ∧ C.cString buffer = [0x61]) ∧
      ¬ DeliversV8 zeroHmac ciphertext [1000003] (.ofList 32 []) [7] ['a', '\x00', 'b'] := by
  obtain ⟨ciphertext, hct⟩ := @exists_encryptsV8 ['a', '\x00', 'b'] (by decide)
  have hrun : C.napqesDecryptBytesV8 zeroHmac ciphertext [1000003] (.ofList 32 []) [7] =
      .ok [0x61, 0, 0x62, 0] :=
    @EncryptsV8.napqesDecryptBytesV8_eq Nat.sqrt [1000003] zeroHmac _ _ ⟨[7], by decide⟩ _
      keyValid_1000003 Python.validateKey_1000003 hct
  refine ⟨ciphertext, hct, ⟨_, hrun, by decide⟩, ?_⟩
  rintro (hnull | ⟨buffer, hok, hstring⟩)
  · rw [show [1000003].map UInt64.ofNat = [1000003] from rfl, hrun] at hnull
    cases hnull
  · rw [show [1000003].map UInt64.ofNat = [1000003] from rfl, hrun] at hok
    cases hok
    revert hstring
    decide

end Napqes
