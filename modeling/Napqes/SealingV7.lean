import Napqes.C.Proofs.SealingV7
import Napqes.Python.Proofs.SealingV7

/-!
# The v7 block ports seal alike

With one nonce the three ports write the same token list, so they return the same ciphertext, which
each of them opens. They differ in when they give up: Rust at a noise run beyond its guard, C at
tokens beyond the reach of its keystream, and Python behind that.
-/

namespace Napqes

variable {H : Hmac} {noise : Rust.Noise} {mathSqrt : Nat → Nat} {key : List Nat}
  {nonce : FixedBytes Rust.nonceSize} {aad : List UInt8} {message : Str}

theorem length_ciphertextV7 (H : Hmac) (kb : List UInt8) (nonce : FixedBytes Rust.nonceSize)
    (aad : List UInt8) (slots : List Nat) :
    (Rust.ciphertextV7 H kb nonce aad slots).length = 48 + 8 * slots.length := by
  rw [Rust.ciphertextV7, List.length_append, List.length_append, nonce.length_toList,
    FixedBytes.length_toList, length_maskWith, Rust.fixedEncodeTokens, length_flatMap_beBytes,
    Rust.tokenWidth, Rust.nonceSize]
  omega

/-- What Rust opens as a string Python opens as its code points. -/
theorem python_decryptBytes_of_rust (hkey : KeyValid key)
    (hpy : Python.validateKey mathSqrt key = .ok ⟨⟩) {c : List UInt8}
    (h : Rust.decryptBytes H noise c key aad = .ok message) :
    Python.decryptBytes H noise mathSqrt c key aad = .ok message.codepoints := by
  obtain ⟨nonce, masked, n, hauthentic, -, hn, hout⟩ := Rust.reading_of_decryptBytes hkey h
  exact (Python.decryptBytes_eq_ok_iff hpy hkey hauthentic).mpr ⟨n, hn, hout⟩

/-- A message of more bytes than the length prefix can say is refused. -/
theorem C.napqesEncryptBytes_of_long {ckey : List UInt64} {bytes : List UInt8}
    (hnul : ∀ b ∈ bytes, b ≠ 0) (hlong : 0xFFFF < bytes.length) :
    C.napqesEncryptBytes H noise (bytes ++ [0]) ckey aad nonce = C.null := by
  rw [C.napqesEncryptBytes, C.strlen_append hnul, ok_bind, if_neg (by omega), if_pos hlong]

/-! ## Port against port -/

section
variable (hkey : KeyValid key) (hpy : Python.validateKey mathSqrt key = .ok ⟨⟩)
  (haad : aad.length < 2 ^ 32)
include hkey hpy haad

theorem python_encryptBytes_of_rust {c : List UInt8}
    (h : Rust.encryptBytes H noise message key aad (.ok nonce) = .ok c) :
    Python.encryptBytes H noise mathSqrt message.codepoints key aad nonce.toList = .ok c := by
  rcases Rust.encryptBytes_cases H noise message nonce hkey haad with
    ⟨-, msg, herr⟩ | ⟨hlen, ⟨slots, hslots, htokens, hreach⟩ | herr⟩
  · rw [herr] at h
    cases h
  · rw [hslots] at h
    obtain rfl := Except.ok.inj h
    exact (Python.encryptBytes_eq_ok_iff hpy hkey haad).mpr ⟨hlen, slots, htokens, by omega, rfl⟩
  · rw [herr] at h
    cases h

omit hpy in
/-- What Rust seals is within the reach of every keystream. -/
theorem length_le_of_rust_encryptBytes {c : List UInt8}
    (h : Rust.encryptBytes H noise message key aad (.ok nonce) = .ok c) :
    c.length ≤ 48 + 32 * (2 ^ 32 - 1) := by
  rcases Rust.encryptBytes_cases H noise message nonce hkey haad with
    ⟨-, msg, herr⟩ | ⟨-, ⟨slots, hslots, -, hreach⟩ | herr⟩
  · rw [herr] at h
    cases h
  · rw [hslots] at h
    obtain rfl := Except.ok.inj h
    rw [length_ciphertextV7]
    exact Nat.add_le_add_left hreach 48
  · rw [herr] at h
    cases h

/-- Rust seals what Python seals, unless a noise run is beyond its guard. -/
theorem rust_encryptBytes_of_python {c : List UInt8}
    (h : Python.encryptBytes H noise mathSqrt message.codepoints key aad nonce.toList = .ok c) :
    Rust.encryptBytes H noise message key aad (.ok nonce) = .ok c ∨
      Rust.encryptBytes H noise message key aad (.ok nonce) = Rust.err Rust.noiseRunMessage := by
  obtain ⟨hlen, slots, htokens, -, rfl⟩ := (Python.encryptBytes_eq_ok_iff hpy hkey haad).mp h
  rcases Rust.encryptBytes_cases H noise message nonce hkey haad with
    ⟨hlong, -⟩ | ⟨-, ⟨slots', hslots', htokens', -⟩ | herr⟩
  · exact absurd hlen (Nat.not_le.mpr hlong)
  · rw [hslots', Schedule.Emits.unique htokens htokens']
    exact Or.inl rfl
  · exact Or.inr herr

theorem rust_decryptBytes_of_python {c : List UInt8}
    (h : Python.encryptBytes H noise mathSqrt message.codepoints key aad nonce.toList = .ok c)
    (hreach : c.length ≤ 48 + 32 * (2 ^ 32 - 1)) :
    Rust.decryptBytes H noise c key aad = .ok message := by
  obtain ⟨hlen, slots, htokens, -, rfl⟩ := (Python.encryptBytes_eq_ok_iff hpy hkey haad).mp h
  rw [length_ciphertextV7] at hreach
  exact Rust.decryptBytes_ciphertextV7 hkey haad hlen htokens (by omega)

/-- C seals what Python seals, as far as its keystream reaches. -/
theorem C.napqesEncryptBytes_eq_ok_iff_python {bytes : List UInt8} (hne : bytes ≠ [])
    (hnul : ∀ b ∈ bytes, b ≠ 0) (hbytes : bytes.map UInt8.toNat = message.codepoints)
    {c : List UInt8} :
    C.napqesEncryptBytes H noise (bytes ++ [0]) (key.map UInt64.ofNat) aad nonce = .ok c ↔
      Python.encryptBytes H noise mathSqrt message.codepoints key aad nonce.toList = .ok c ∧
        c.length ≤ 48 + 32 * (2 ^ 32 - 1) := by
  have hprimes := C.primesNat_ofNat hkey
  have hckey : KeyValid (C.primesNat (key.map UInt64.ofNat)) := by rwa [hprimes]
  have hcount : bytes.length = message.length := by
    rw [← List.length_map (f := UInt8.toNat), hbytes, Str.codepoints, List.length_map]
  rw [Python.encryptBytes_eq_ok_iff hpy hkey haad]
  by_cases hlen : bytes.length ≤ 0xFFFF
  · rw [C.napqesEncryptBytes_eq_ok_iff hckey (List.length_pos_iff.mpr hne) hlen hnul, hprimes,
      hbytes]
    constructor
    · rintro ⟨slots, htokens, hreach, rfl⟩
      refine ⟨⟨hcount ▸ hlen, slots, htokens, by omega, rfl⟩, ?_⟩
      rw [length_ciphertextV7]
      omega
    · rintro ⟨⟨-, slots, htokens, -, rfl⟩, hreach⟩
      rw [length_ciphertextV7] at hreach
      exact ⟨slots, htokens, by omega, rfl⟩
  · rw [C.napqesEncryptBytes_of_long hnul (Nat.lt_of_not_le hlen)]
    exact iff_of_false (fun h => by cases h) fun h => hlen (hcount.symm ▸ h.1.1)

end

theorem C.napqesDecryptBytes_of_napqesEncryptBytes (hkey : KeyValid key) {bytes : List UInt8}
    (hne : bytes ≠ []) (hnul : ∀ b ∈ bytes, b ≠ 0) {c : List UInt8}
    (h : C.napqesEncryptBytes H noise (bytes ++ [0]) (key.map UInt64.ofNat) aad nonce = .ok c) :
    C.napqesDecryptBytes H noise c (key.map UInt64.ofNat) aad = .ok (bytes ++ [0]) := by
  have hckey : KeyValid (C.primesNat (key.map UInt64.ofNat)) := by
    rwa [C.primesNat_ofNat hkey]
  by_cases hlen : bytes.length ≤ 0xFFFF
  · obtain ⟨slots, htokens, hreach, rfl⟩ :=
      (C.napqesEncryptBytes_eq_ok_iff hckey (List.length_pos_iff.mpr hne) hlen hnul).mp h
    exact C.napqesDecryptBytes_ciphertextV7 hckey hlen htokens hreach
  · rw [C.napqesEncryptBytes_of_long hnul (Nat.lt_of_not_le hlen)] at h
    cases h

/-- The v7 block ports agree. Rust returns what Python returns, or stops at its noise guard; C
returns what Python returns, as far as its keystream reaches; and each port opens what any of them
has sealed. -/
theorem v7_block_ports_agree (H : Hmac) (noise : Rust.Noise) (mathSqrt : Nat → Nat)
    (key : List Nat) (hkey : Rust.validateKey key = .ok ⟨⟩)
    (hpy : Python.validateKey mathSqrt key = .ok ⟨⟩) (nonce : FixedBytes Rust.nonceSize)
    (aad : List UInt8) (haad : aad.length < 2 ^ 32) (message : Str) :
    (∀ c, Rust.encryptBytes H noise message key aad (.ok nonce) = .ok c →
      Python.encryptBytes H noise mathSqrt message.codepoints key aad nonce.toList = .ok c) ∧
    (∀ c, Python.encryptBytes H noise mathSqrt message.codepoints key aad nonce.toList = .ok c →
      (Rust.encryptBytes H noise message key aad (.ok nonce) = .ok c ∨
        Rust.encryptBytes H noise message key aad (.ok nonce) = Rust.err Rust.noiseRunMessage) ∧
      (c.length ≤ 48 + 32 * (2 ^ 32 - 1) →
        Rust.decryptBytes H noise c key aad = .ok message ∧
        Python.decryptBytes H noise mathSqrt c key aad = .ok message.codepoints)) ∧
    (∀ bytes : List UInt8, bytes ≠ [] → (∀ b ∈ bytes, b ≠ 0) →
      bytes.map UInt8.toNat = message.codepoints → ∀ c,
      (C.napqesEncryptBytes H noise (bytes ++ [0]) (key.map UInt64.ofNat) aad nonce = .ok c ↔
        Python.encryptBytes H noise mathSqrt message.codepoints key aad nonce.toList = .ok c ∧
          c.length ≤ 48 + 32 * (2 ^ 32 - 1)) ∧
      (C.napqesEncryptBytes H noise (bytes ++ [0]) (key.map UInt64.ofNat) aad nonce = .ok c →
        C.napqesDecryptBytes H noise c (key.map UInt64.ofNat) aad = .ok (bytes ++ [0]))) := by
  have hvalid := (Rust.validateKey_iff key).mp hkey
  refine ⟨fun c hc => python_encryptBytes_of_rust hvalid hpy haad hc, fun c hc => ?_,
    fun bytes hne hnul hbytes c => ?_⟩
  · refine ⟨rust_encryptBytes_of_python hvalid hpy haad hc, fun hreach => ?_⟩
    have hopen := rust_decryptBytes_of_python hvalid hpy haad hc hreach
    exact ⟨hopen, python_decryptBytes_of_rust hvalid hpy hopen⟩
  · exact ⟨C.napqesEncryptBytes_eq_ok_iff_python hvalid hpy haad hne hnul hbytes,
      C.napqesDecryptBytes_of_napqesEncryptBytes hvalid hne hnul⟩

/-- Noise at every other position. -/
def evenNoise : Rust.Noise := fun _ _ pos => pos % 2 == 0

/-- Rust seals two characters through it. -/
theorem exists_encryptBytes_two_chars :
    ∃ c, Rust.encryptBytes zeroHmac evenNoise ['h', 'é'] [1000003] [7] (.ok (.ofList 16 [1])) =
      .ok c := by
  have hfree : ∀ pos, ∃ i ≤ Rust.v7NoiseRunGuard, evenNoise (Rust.keyBytes [1000003])
      (FixedBytes.ofList 16 [1]).toList (pos + i) = false := by
    intro pos
    rcases Nat.mod_two_eq_zero_or_one pos with heven | hodd
    · refine ⟨1, by decide, beq_eq_false_iff_ne.mpr ?_⟩
      omega
    · refine ⟨0, Nat.zero_le _, beq_eq_false_iff_ne.mpr ?_⟩
      omega
  rw [Rust.encryptBytes, Rust.validateKey_1000003, ok_bind,
    (Rust.checkV7AadLen_eq_ok_iff _).mpr (by decide), ok_bind, if_neg (by decide), ok_bind]
  exact Rust.exists_sealV7 (Rust.KeyUsable.of_keyValid keyValid_1000003)
    (Str.isScalar_of_mem_codepoints _) (by decide) (by decide) hfree

/-- All three ports seal them to one ciphertext, and each opens it. -/
theorem v7_block_ports_agree_two_chars :
    ∃ c, Rust.encryptBytes zeroHmac evenNoise ['h', 'é'] [1000003] [7] (.ok (.ofList 16 [1])) =
        .ok c ∧
      Python.encryptBytes zeroHmac evenNoise Nat.sqrt [104, 233] [1000003] [7]
        (FixedBytes.ofList 16 [1]).toList = .ok c ∧
      C.napqesEncryptBytes zeroHmac evenNoise [104, 233, 0] [1000003] [7] (.ofList 16 [1]) =
        .ok c ∧
      Rust.decryptBytes zeroHmac evenNoise c [1000003] [7] = .ok ['h', 'é'] ∧
      Python.decryptBytes zeroHmac evenNoise Nat.sqrt c [1000003] [7] = .ok [104, 233] ∧
      C.napqesDecryptBytes zeroHmac evenNoise c [1000003] [7] = .ok [104, 233, 0] := by
  obtain ⟨hpython, hback, hc⟩ := v7_block_ports_agree zeroHmac evenNoise Nat.sqrt [1000003]
    Rust.validateKey_1000003 Python.validateKey_1000003 (.ofList 16 [1]) [7] (by decide)
    ['h', 'é']
  obtain ⟨c, hrust⟩ := exists_encryptBytes_two_chars
  have hreach := length_le_of_rust_encryptBytes keyValid_1000003 (by decide) hrust
  have hsealed := hpython c hrust
  obtain ⟨hopenRust, hopenPython⟩ := (hback c hsealed).2 hreach
  obtain ⟨hiff, hopenC⟩ := hc [104, 233] (by decide) (by simp) rfl c
  have hsealedC := hiff.mpr ⟨hsealed, hreach⟩
  exact ⟨c, hrust, hsealed, hsealedC, hopenRust, hopenPython, hopenC hsealedC⟩

end Napqes
