import Napqes.C.Proofs.Authenticated
import Napqes.C.Proofs.Base64
import Napqes.C.Proofs.Block
import Napqes.Misc.Base64

/-!
# Ciphertexts as text in the C port

`base64_encode` writes the standard text, which has no `NUL` and is read back in front of any.
-/

namespace Napqes.C

theorem alphaAt_eq_code : ∀ v < 64, alphaAt v = UInt8.ofNat (Base64.code v) := by decide +kernel

/-- `base64_encode` writes the bytes of the standard text. -/
theorem base64Encode_eq_text (x : List UInt8) :
    base64Encode x = (Base64.text x).map UInt8.ofNat := by
  rw [base64Encode_eq, Base64.encode_congr alphaAt_eq_code, Base64.text,
    Base64.map_encode]
  rfl

theorem ne_zero_of_mem_base64Encode (x : List UInt8) : ∀ b ∈ base64Encode x, b ≠ 0 := by
  have halpha : ∀ v < 64, alphaAt v ≠ 0 := by decide +kernel
  rw [base64Encode_eq]
  exact Base64.forall_mem_encode (P := fun b => b ≠ 0) halpha (by decide) x

section
variable (H : Hmac) (x rest : List UInt8)

theorem napqesDecryptStrV8_base64Encode (primes : List UInt64) (sk : FixedBytes skSize)
    (aad : List UInt8) :
    napqesDecryptStrV8 H (base64Encode x ++ 0 :: rest) primes sk aad =
      napqesDecryptBytesV8 H x primes sk aad := by
  rw [napqesDecryptStrV8, strlen_append (ne_zero_of_mem_base64Encode x), ok_bind]
  rw [List.take_left' rfl, base64Decode_base64Encode]

theorem napqesDecryptStr_base64Encode (noise : Rust.Noise) (key : List UInt64)
    (aad : List UInt8) :
    napqesDecryptStr H noise (base64Encode x ++ 0 :: rest) key aad =
      napqesDecryptBytes H noise x key aad := by
  by_cases hx : x = []
  · rw [hx, napqesDecryptBytes_nil, napqesDecryptStr_nul rfl]
  · have hhead : (base64Encode x ++ 0 :: rest).head? ≠ some 0 := by
      have hne : base64Encode x ≠ [] := by
        rw [base64Encode_eq]
        exact Base64.encode_ne_nil hx
      intro hzero
      rw [List.head?_append_of_ne_nil _ hne] at hzero
      exact ne_zero_of_mem_base64Encode x 0 (List.mem_of_mem_head? hzero) rfl
    rw [napqesDecryptStr, if_neg hhead, strlen_append (ne_zero_of_mem_base64Encode x), ok_bind]
    rw [List.take_left' rfl, base64Decode_base64Encode]

/-- The empty message is its own text. -/
theorem napqesEncryptStr_nul (noise : Rust.Noise) (key : List UInt64) (aad : List UInt8)
    (nonce : FixedBytes nonceSize) :
    napqesEncryptStr H noise (0 :: rest) key aad nonce = .ok [0] := rfl

theorem napqesEncryptStr_eq_ok_iff (noise : Rust.Noise) {message : List UInt8}
    (hne : message ≠ []) (hnul : ∀ b ∈ message, b ≠ 0) (key : List UInt64) (aad : List UInt8)
    (nonce : FixedBytes nonceSize) (out : List UInt8) :
    napqesEncryptStr H noise (message ++ 0 :: rest) key aad nonce = .ok out ↔
      ∃ c, napqesEncryptBytes H noise (message ++ 0 :: rest) key aad nonce = .ok c ∧
        out = base64Encode c ++ [0] := by
  have hhead : (message ++ 0 :: rest).head? ≠ some 0 := by
    intro hzero
    rw [List.head?_append_of_ne_nil _ hne] at hzero
    exact hnul 0 (List.mem_of_mem_head? hzero) rfl
  rw [napqesEncryptStr, if_neg hhead, bind_eq_ok]
  exact exists_congr fun c => and_congr_right' ⟨fun h => (Except.ok.inj h).symm, fun h => h ▸ rfl⟩

theorem napqesEncryptStrV8Profiled_eq_ok_iff (message : List UInt8) (primes : List UInt64)
    (sk : FixedBytes skSize) (aad : List UInt8) (profile : Option PadProfile)
    (out : List UInt8) :
    napqesEncryptStrV8Profiled H message primes sk aad profile = .ok out ↔
      ∃ c, napqesEncryptBytesV8Profiled H message primes sk aad profile = .ok c ∧
        out = base64Encode c ++ [0] := by
  rw [napqesEncryptStrV8Profiled, bind_eq_ok]
  exact exists_congr fun c => and_congr_right' ⟨fun h => (Except.ok.inj h).symm, fun h => h ▸ rfl⟩

end

end Napqes.C
