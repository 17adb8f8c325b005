import Napqes.C.Proofs.Text
import Napqes.Delivery
import Napqes.Python.Proofs.Text
import Napqes.Rust.Proofs.Text
import Napqes.SealingV7

/-!
# Ciphertexts as text in all ports

The ports write one text for a ciphertext. Python and C read more than that text and Rust does not,
so each port opens what another one has written.
-/

namespace Napqes

variable {H : Hmac} {noise : Rust.Noise} {mathSqrt : Nat → Nat} {key : List Nat}
  {nonce : FixedBytes Rust.nonceSize} {aad : List UInt8} {message : Str}

theorem Python.encryptStr_eq_ok_iff {message : List Nat} {nonce : List UInt8} {t : List Nat} :
    Python.encryptStr H mathSqrt noise message key aad nonce = .ok t ↔
      ∃ c, Python.encryptBytes H noise mathSqrt message key aad nonce = .ok c ∧
        t = Base64.text c := by
  rw [Python.encryptStr, bind_eq_ok]
  exact exists_congr fun c => and_congr_right' ⟨fun h => (Except.ok.inj h).symm, fun h => h ▸ rfl⟩

theorem Python.encryptStrV8_eq_ok_iff {message primes : List Nat} {sk : List UInt8}
    {profile : Python.PadProfile} {t : List Nat} :
    Python.encryptStrV8 H mathSqrt message primes sk aad profile = .ok t ↔
      ∃ c, Python.encryptBytesV8 H mathSqrt message primes sk aad profile = .ok c ∧
        t = Base64.text c := by
  rw [Python.encryptStrV8, bind_eq_ok]
  exact exists_congr fun c => and_congr_right' ⟨fun h => (Except.ok.inj h).symm, fun h => h ▸ rfl⟩

/-- The buffer of a C text. -/
def C.textBuffer (t : List Nat) : List UInt8 := t.map UInt8.ofNat ++ [0]

theorem C.textBuffer_text (c : List UInt8) :
    C.textBuffer (Base64.text c) = C.base64Encode c ++ [0] := by
  rw [C.textBuffer, C.base64Encode_eq_text]

/-! ## The v7 text -/

/-- The texts that the keystream of every port can open. -/
def textReach : Nat := (48 + 32 * (2 ^ 32 - 1) + 2) / 3 * 4

theorem length_text_le_textReach {c : List UInt8} {n : Nat} (hc : c.length = 48 + 8 * n) :
    (Base64.text c).length ≤ textReach ↔ c.length ≤ 48 + 32 * (2 ^ 32 - 1) := by
  rw [Base64.text, Base64.length_encode, hc, textReach]
  omega

theorem length_python_encryptBytes (hkey : KeyValid key)
    (hpy : Python.validateKey mathSqrt key = .ok ⟨⟩) (haad : aad.length < 2 ^ 32)
    {c : List UInt8}
    (h : Python.encryptBytes H noise mathSqrt message.codepoints key aad nonce.toList = .ok c) :
    ∃ n, c.length = 48 + 8 * n := by
  obtain ⟨-, slots, -, -, rfl⟩ := (Python.encryptBytes_eq_ok_iff hpy hkey haad).mp h
  exact ⟨_, length_ciphertextV7 H _ nonce aad slots⟩

/-- An engine that decodes a text if C does and it is the text of what was read. -/
def strictEngine : Rust.Base64Engine where
  encode x := (Base64.text x).map Char.ofNat
  decode bytes :=
    match C.base64Decode bytes with
    | some x =>
        if bytes = Str.asBytes ((Base64.text x).map Char.ofNat) then .ok x
        else .error "Invalid last symbol"
    | none => .error "Invalid byte"

theorem asBytes_strictEngine_encode (x : List UInt8) :
    (strictEngine.encode x).asBytes = C.base64Encode x := by
  have hascii : ∀ c < 0x80, String.utf8EncodeChar (Char.ofNat c) = [UInt8.ofNat c] := by decide
  rw [C.base64Encode_eq_text, strictEngine, Str.asBytes, List.flatMap_map,
    ← List.flatMap_singleton' ((Base64.text x).map UInt8.ofNat), List.flatMap_map]
  exact List.flatMap_congr fun c hc => hascii c (Base64.lt_of_mem_text c hc)

theorem strictEngine_isStandard : strictEngine.IsStandard where
  codepoints_encode x := by
    have hascii : ∀ c < 0x80, (Char.ofNat c).toNat = c := by decide
    rw [strictEngine, Str.codepoints, List.map_map]
    conv_rhs => rw [← List.map_id (Base64.text x)]
    exact List.map_congr_left fun c hc => hascii c (Base64.lt_of_mem_text c hc)
  decode_eq_ok_iff bytes x := by
    have hdecode : C.base64Decode (strictEngine.encode x).asBytes = some x := by
      rw [asBytes_strictEngine_encode, C.base64Decode_base64Encode]
    constructor
    · intro h
      rw [strictEngine] at h
      dsimp only at h
      split at h
      case h_1 y hy =>
        split at h
        case isTrue htext =>
          obtain rfl := Except.ok.inj h
          exact htext
        case isFalse => cases h
      case h_2 => cases h
    · rintro rfl
      rw [strictEngine] at hdecode ⊢
      dsimp only at hdecode ⊢
      rw [hdecode]
      exact if_pos rfl

section
variable {primes : List Nat} {sk : FixedBytes 32} {aad : Slice}

theorem BlockOpensTo.length_lt {skFmt : List UInt8}
    {verify : List UInt8 → List UInt8 → List UInt8 → Bool} {aad ciphertext : List UInt8}
    {out : List Nat} (h : BlockOpensTo H primes skFmt verify aad ciphertext out) :
    ciphertext.length < 2 ^ 36 := by
  obtain ⟨nonce, body, tag, b, cps, hopen⟩ := h
  obtain ⟨e, -, hmax, hb⟩ := hopen.reachable
  have hble : b ≤ 2 ^ 16 := hb ▸ Nat.pow_le_pow_right (Nat.succ_pos 1) hmax
  rw [hopen.split, List.length_append, List.length_append, hopen.length_nonce,
    hopen.length_tag, hopen.length_body]
  omega

/-- Python opens what Rust or Python has encrypted. -/
theorem EncryptsV8.python_decryptBytesV8_eq {ciphertext : List UInt8} (hkey : KeyValid primes)
    (hpy : Python.validateKey mathSqrt primes = .ok ⟨⟩)
    (h : EncryptsV8 H mathSqrt message primes sk aad.bytes ciphertext) :
    Python.decryptBytesV8 H mathSqrt ciphertext primes sk.toList aad.bytes =
      .ok message.codepoints := by
  have hopens := h.opens hkey hpy
  exact (Python.decryptBytesV8_eq_ok_iff H hpy hkey ciphertext hopens.length_lt sk aad.length_lt
    _).mpr hopens

/-- C encrypts a string of bytes as Python does. -/
theorem C.napqesEncryptBytesV8Profiled_eq_ok_iff (hkey : KeyValid primes)
    (hpy : Python.validateKey mathSqrt primes = .ok ⟨⟩) {bytes : List UInt8}
    (hnul : ∀ b ∈ bytes, b ≠ 0) (hbytes : bytes.map UInt8.toNat = message.codepoints)
    (rest : List UInt8) (profile : Option C.PadProfile) (c : List UInt8) :
    C.napqesEncryptBytesV8Profiled H (bytes ++ 0 :: rest) (primes.map UInt64.ofNat) sk aad.bytes
        profile = .ok c ↔
      Python.encryptBytesV8 H mathSqrt message.codepoints primes sk.toList aad.bytes
        (.ofRust (C.PadProfile.toRust profile)) = .ok c := by
  have hprimes := C.primesNat_ofNat hkey
  have hlatin : (Rust.latin1 bytes).codepoints = message.codepoints := by
    rw [Rust.codepoints_latin1, hbytes]
  have hcount : message.codepoints.length = bytes.length := by
    rw [← hbytes, List.length_map]
  have hmessage : Rust.latin1 bytes = message :=
    List.map_injective_iff.mpr (fun _ _ => Char.toNat_inj.mp) hlatin
  rw [Python.encryptBytesV8_eq_ok_iff H hpy hkey message sk aad.length_lt, hcount]
  by_cases hlen : bytes.length ≤ 65535
  · rw [C.napqesEncryptBytesV8Profiled_eq (by rwa [hprimes]) hnul hlen, hprimes, hmessage]
    cases (C.PadProfile.toRust profile).blockSize bytes.length with
    | error e => exact iff_of_false (fun h => by cases h) fun ⟨_, h, _⟩ => by cases h
    | ok b =>
        constructor
        · exact fun h => ⟨b, rfl, (Except.ok.inj h).symm⟩
        · rintro ⟨b', hb, rfl⟩
          obtain rfl := Except.ok.inj hb
          rfl
  · have hnull : C.napqesEncryptBytesV8Profiled H (bytes ++ 0 :: rest) (primes.map UInt64.ofNat)
        sk aad.bytes profile = C.null := by
      have hvalid : ¬ (!C.validateKey (primes.map UInt64.ofNat)) = true := by
        simp [(C.validateKey_iff _).mpr (hprimes.symm ▸ hkey)]
      rw [C.napqesEncryptBytesV8Profiled, if_neg hvalid, C.strlen_append hnul, ok_bind,
        if_pos (by omega)]
    rw [hnull]
    refine iff_of_false (fun h => by cases h) ?_
    rintro ⟨b, hb, -⟩
    have hmax := (Rust.blockSize_spec hb).2.2
    simp only [Rust.padMaxExp] at hmax
    omega

end

/-- The v8 string functions of Python and C: what Python writes both open, C as far as the message
is one of bytes, and on a string of bytes C writes what Python writes. -/
theorem v8_text_ports_agree (H : Hmac) (mathSqrt : Nat → Nat) (primes : List Nat)
    (hrust : Rust.validateKey primes = .ok ⟨⟩)
    (hpy : Python.validateKey mathSqrt primes = .ok ⟨⟩) (sk : FixedBytes 32) (aad : Slice)
    (message : Str) :
    (∀ profile t, Python.encryptStrV8 H mathSqrt message.codepoints primes sk.toList aad.bytes
        profile = .ok t →
      Python.decryptStrV8 H mathSqrt t primes sk.toList aad.bytes = .ok message.codepoints ∧
      C.napqesDecryptStrV8 H (C.textBuffer t) (primes.map UInt64.ofNat) sk aad.bytes =
        C.writeChars message.codepoints) ∧
    (∀ bytes rest : List UInt8, (∀ b ∈ bytes, b ≠ 0) →
      bytes.map UInt8.toNat = message.codepoints → ∀ profile out,
      C.napqesEncryptStrV8Profiled H (bytes ++ 0 :: rest) (primes.map UInt64.ofNat) sk aad.bytes
          profile = .ok out ↔
        ∃ t, Python.encryptStrV8 H mathSqrt message.codepoints primes sk.toList aad.bytes
            (.ofRust (C.PadProfile.toRust profile)) = .ok t ∧ out = C.textBuffer t) := by
  have hkey := (Rust.validateKey_iff primes).mp hrust
  constructor
  · intro profile t ht
    obtain ⟨c, hc, rfl⟩ := Python.encryptStrV8_eq_ok_iff.mp ht
    have hencrypts : EncryptsV8 H mathSqrt message primes sk aad.bytes c := Or.inr ⟨profile, hc⟩
    constructor
    · exact (Python.decryptStrV8_b64encode H mathSqrt c primes sk.toList aad.bytes).trans
        (hencrypts.python_decryptBytesV8_eq hkey hpy)
    · rw [C.textBuffer_text, C.napqesDecryptStrV8_base64Encode,
        hencrypts.napqesDecryptBytesV8_eq hkey hpy]
  · intro bytes rest hnul hbytes profile out
    rw [C.napqesEncryptStrV8Profiled_eq_ok_iff]
    constructor
    · rintro ⟨c, hc, rfl⟩
      have hpython := (C.napqesEncryptBytesV8Profiled_eq_ok_iff hkey hpy hnul hbytes rest profile
        c).mp hc
      exact ⟨_, Python.encryptStrV8_eq_ok_iff.mpr ⟨c, hpython, rfl⟩, (C.textBuffer_text c).symm⟩
    · rintro ⟨t, ht, rfl⟩
      obtain ⟨c, hc, rfl⟩ := Python.encryptStrV8_eq_ok_iff.mp ht
      exact ⟨c, (C.napqesEncryptBytesV8Profiled_eq_ok_iff hkey hpy hnul hbytes rest profile c).mpr
        hc, C.textBuffer_text c⟩

theorem v8_text_ports_agree_one_char :
    ∃ t, Python.encryptStrV8 zeroHmac Nat.sqrt (Str.codepoints ['A']) [1000003]
        (FixedBytes.ofList 32 []).toList [7] .bucket = .ok t ∧
      Python.decryptStrV8 zeroHmac Nat.sqrt t [1000003] (FixedBytes.ofList 32 []).toList [7] =
        .ok (Str.codepoints ['A']) := by
  have hcore : ∃ c, Python.encryptBytesV8 zeroHmac Nat.sqrt (Str.codepoints ['A']) [1000003]
      (FixedBytes.ofList 32 []).toList [7] .bucket = .ok c :=
    ⟨_, (Python.encryptBytesV8_eq_ok_iff zeroHmac Python.validateKey_1000003 keyValid_1000003 ['A']
      (.ofList 32 []) (by decide) .bucket _).mpr ⟨16, rfl, rfl⟩⟩
  obtain ⟨c, hc⟩ := hcore
  have ht := Python.encryptStrV8_eq_ok_iff.mpr ⟨c, hc, rfl⟩
  have htext := v8_text_ports_agree zeroHmac Nat.sqrt [1000003] Rust.validateKey_1000003
    Python.validateKey_1000003 (.ofList 32 []) ⟨[7], by decide⟩ ['A']
  exact ⟨_, ht, (htext.1 .bucket _ ht).1⟩

end Napqes
