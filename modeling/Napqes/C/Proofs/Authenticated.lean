import Napqes.C.Base64
import Napqes.C.Proofs.BlockDecrypt

/-!
# The C decryptors check the tag before they return

Each block decryptor of the C port returns a plaintext only for an input whose last 32 bytes are the
tag of the rest. The v7 entry points have one more way out, which comes before the check: they
answer the empty input with the empty string.
-/

namespace Napqes.C

variable (H : Hmac) (noise : Rust.Noise)

/-- The input holds at least a nonce and a tag, and the tag is that of the bytes before it. -/
structure Authenticated (kb aad : List UInt8) (aadLenWidth : Nat) (input : List UInt8) : Prop where
  length_ge : nonceSize + tagSize ≤ input.length
  tag_eq : input.drop (input.length - tagSize) =
    (computeAuthTag H kb aad (input.take (input.length - tagSize)) aadLenWidth).toList

/-- The bytes that a base64 string stands for. -/
def decodedInput (cypher : List UInt8) : Option (List UInt8) := base64Decode (cString cypher)

variable {H noise}

/-- What the comparison of the decryptors establishes. -/
theorem Authenticated.of_constantTimeEq {kb aad input : List UInt8} {width : Nat}
    (hlen : ¬ input.length < nonceSize + tagSize)
    (htag : constantTimeEq (input.drop (input.length - tagSize))
      (computeAuthTag H kb aad (input.take (input.length - tagSize)) width).toList tagSize = true) :
    Authenticated H kb aad width input := by
  refine ⟨Nat.le_of_not_lt hlen, ?_⟩
  have hdrop : (input.drop (input.length - tagSize)).length = 32 := by
    rw [nonceSize, tagSize] at hlen
    rw [List.length_drop, tagSize]
    omega
  rw [computeAuthTag, constantTimeEq_tag hdrop, Rust.hmacVerify, Rust.ctEqBytes, beq_iff_eq] at htag
  exact htag

theorem not_authenticated_nil (kb aad : List UInt8) (width : Nat) :
    ¬ Authenticated H kb aad width [] := fun h => absurd h.length_ge (by decide)

/-! ## Byte strings -/

theorem authenticated_of_napqesDecryptBytes {ciphertext aad buf : List UInt8} {key : List UInt64}
    (hne : ciphertext ≠ []) (h : napqesDecryptBytes H noise ciphertext key aad = .ok buf) :
    Authenticated H (keyBytes key) aad aadLenWidthV7 ciphertext := by
  rw [napqesDecryptBytes, if_neg fun hnil => hne (List.length_eq_zero_iff.mp hnil)] at h
  split at h
  case isTrue => cases h
  case isFalse hlen =>
    dsimp only at h
    split at h
    case isTrue => cases h
    case isFalse htag => exact .of_constantTimeEq hlen (by simpa using htag)

theorem authenticated_of_napqesDecryptBytesV8 {ciphertext aad buf : List UInt8}
    {primes : List UInt64} {sk : FixedBytes skSize}
    (h : napqesDecryptBytesV8 H ciphertext primes sk aad = .ok buf) :
    Authenticated H (deriveFormatSubkey H sk formatBlockV8).toList aad aadLenWidthV8
      ciphertext := by
  rw [napqesDecryptBytesV8] at h
  split at h
  case isTrue => cases h
  case isFalse =>
    split at h
    case isTrue => cases h
    case isFalse hlen =>
      split at h
      case isTrue => cases h
      case isFalse =>
        dsimp only at h
        split at h
        case isTrue => cases h
        case isFalse htag => exact .of_constantTimeEq hlen (by simpa using htag)

/-! ## Base64 strings -/

/-- `strlen` counts the characters before the first `NUL`. -/
theorem take_strlen {s : List UInt8} {n : Nat} (h : strlen s = .ok n) : s.take n = cString s := by
  rw [strlen] at h
  split at h
  case h_1 i hfind =>
    cases h
    rw [cString, List.findIdx?_eq_some_iff_findIdx_eq] at *
    rw [List.takeWhile_eq_take_findIdx_not, ← hfind.2]
    congr 2
    funext b
    rw [bne, Bool.not_not]
  case h_2 => cases h

/-- A string whose decoding the entry points pass on. -/
theorem exists_decodedInput {s : List UInt8} {decrypt : List UInt8 → CM (List UInt8)}
    {buf : List UInt8}
    (h : (do
      let clen ← strlen s
      match base64Decode (s.take clen) with
      | none => null
      | some bin => decrypt bin) = .ok buf) :
    ∃ bin, decodedInput s = some bin ∧ decrypt bin = .ok buf := by
  obtain ⟨n, hn, h⟩ := bind_eq_ok.mp h
  rw [take_strlen hn] at h
  split at h
  case h_1 => cases h
  case h_2 bin hbin => exact ⟨bin, hbin, h⟩

/-- One group of four characters: its bytes follow what is there, at least one of them. -/
theorem base64DecodeLoop_group {c0 c1 c2 c3 : UInt8} {rest out bin : List UInt8}
    (h : base64DecodeLoop (c0 :: c1 :: c2 :: c3 :: rest) out = some bin) :
    ∃ b bs, base64DecodeLoop rest (out ++ b :: bs) = some bin := by
  have hpads : ∃ triple pad2 pad3, base64DecodeLoop rest
      (let out := out ++ [lowByte (triple >>> 16)]
       let out := if !pad2 then out ++ [lowByte (triple >>> 8)] else out
       if !pad3 then out ++ [lowByte triple] else out) = some bin := by
    rw [base64DecodeLoop] at h
    obtain ⟨v0, -, h⟩ := Option.bind_eq_some_iff.mp h
    obtain ⟨v1, -, h⟩ := Option.bind_eq_some_iff.mp h
    obtain ⟨v2, -, h⟩ := Option.bind_eq_some_iff.mp h
    obtain ⟨v3, -, h⟩ := Option.bind_eq_some_iff.mp h
    dsimp only at h
    split at h
    case isTrue => cases h
    case isFalse => exact ⟨_, _, _, h⟩
  obtain ⟨triple, pad2, pad3, hrest⟩ := hpads
  cases pad2 <;> cases pad3 <;>
    · simp only [Bool.not_false, Bool.not_true, Bool.false_eq_true, ↓reduceIte,
        List.append_assoc, List.cons_append, List.nil_append] at hrest
      exact ⟨_, _, hrest⟩

/-- The decoder keeps what it has written. -/
theorem isPrefix_base64DecodeLoop (input : List UInt8) {out bin : List UInt8}
    (h : base64DecodeLoop input out = some bin) : out <+: bin := by
  match input with
  | c0 :: c1 :: c2 :: c3 :: rest =>
      obtain ⟨b, bs, hrest⟩ := base64DecodeLoop_group h
      exact (List.prefix_append out (b :: bs)).trans (isPrefix_base64DecodeLoop rest hrest)
  | [] | [_] | [_, _] | [_, _, _] =>
      cases h
      exact List.prefix_refl out

/-- Only the empty string decodes to no bytes. -/
theorem base64Decode_eq_nil {input : List UInt8} (h : base64Decode input = some []) :
    input = [] := by
  rw [base64Decode] at h
  split at h
  case isTrue => cases h
  case isFalse hlen =>
    match input with
    | [] => rfl
    | [_] | [_, _] | [_, _, _] => exact absurd (by simp) hlen
    | c0 :: c1 :: c2 :: c3 :: rest =>
        obtain ⟨b, bs, hrest⟩ := base64DecodeLoop_group h
        obtain ⟨tail, htail⟩ := isPrefix_base64DecodeLoop rest hrest
        cases htail

theorem authenticated_of_napqesDecryptStr {cypher aad buf : List UInt8} {key : List UInt64}
    (hne : cypher.head? ≠ some 0) (h : napqesDecryptStr H noise cypher key aad = .ok buf) :
    ∃ bin, decodedInput cypher = some bin ∧
      Authenticated H (keyBytes key) aad aadLenWidthV7 bin := by
  rw [napqesDecryptStr, if_neg hne] at h
  obtain ⟨bin, hbin, hdec⟩ := exists_decodedInput h
  refine ⟨bin, hbin, authenticated_of_napqesDecryptBytes ?_ hdec⟩
  rintro rfl
  -- The string is empty or starts with a `NUL`, and in neither case does the call get this far.
  have hnil := base64Decode_eq_nil hbin
  cases cypher with
  | nil => cases h
  | cons c cs =>
      rw [cString, List.takeWhile_cons] at hnil
      split at hnil
      case isTrue => cases hnil
      case isFalse hc =>
        apply hne
        rw [List.head?_cons, show c = 0 by simpa using hc]

theorem authenticated_of_napqesDecryptStrV8 {cypher aad buf : List UInt8} {primes : List UInt64}
    {sk : FixedBytes skSize} (h : napqesDecryptStrV8 H cypher primes sk aad = .ok buf) :
    ∃ bin, decodedInput cypher = some bin ∧
      Authenticated H (deriveFormatSubkey H sk formatBlockV8).toList aad aadLenWidthV8 bin := by
  obtain ⟨bin, hbin, hdec⟩ := exists_decodedInput h
  exact ⟨bin, hbin, authenticated_of_napqesDecryptBytesV8 hdec⟩

/-! ## The four entry points -/

theorem napqesDecryptBytes_nil (key : List UInt64) (aad : List UInt8) :
    napqesDecryptBytes H noise [] key aad = .ok [0] := rfl

theorem napqesDecryptStr_nul {cypher : List UInt8} (h : cypher.head? = some 0) (key : List UInt64)
    (aad : List UInt8) : napqesDecryptStr H noise cypher key aad = .ok [0] := by
  rw [napqesDecryptStr, if_pos h]

/-- A string that starts with its `NUL` decodes to no bytes. -/
theorem decodedInput_nul {cypher : List UInt8} (h : cypher.head? = some 0) :
    decodedInput cypher = some [] := by
  cases cypher with
  | nil => cases h
  | cons c cs =>
      rw [List.head?_cons, Option.some.injEq] at h
      rw [h, decodedInput, cString, List.takeWhile_cons_of_neg (by decide)]
      rfl

variable (H noise)

/-- The v7 entry points return only authenticated plaintexts exactly on the non-empty inputs, the
v8 entry points on all. -/
theorem decryptors_authenticate :
    (∀ ciphertext key aad,
      (∀ buf, napqesDecryptBytes H noise ciphertext key aad = .ok buf →
        Authenticated H (keyBytes key) aad aadLenWidthV7 ciphertext) ↔ ciphertext ≠ []) ∧
    (∀ cypher key aad,
      (∀ buf, napqesDecryptStr H noise cypher key aad = .ok buf →
        ∃ bin, decodedInput cypher = some bin ∧
          Authenticated H (keyBytes key) aad aadLenWidthV7 bin) ↔ cypher.head? ≠ some 0) ∧
    (∀ ciphertext primes sk aad buf, napqesDecryptBytesV8 H ciphertext primes sk aad = .ok buf →
      Authenticated H (deriveFormatSubkey H sk formatBlockV8).toList aad aadLenWidthV8
        ciphertext) ∧
    ∀ cypher primes sk aad buf, napqesDecryptStrV8 H cypher primes sk aad = .ok buf →
      ∃ bin, decodedInput cypher = some bin ∧
        Authenticated H (deriveFormatSubkey H sk formatBlockV8).toList aad aadLenWidthV8 bin := by
  refine ⟨fun ciphertext key aad => ⟨?_, ?_⟩, fun cypher key aad => ⟨?_, ?_⟩, ?_, ?_⟩
  · rintro h rfl
    exact not_authenticated_nil _ _ _ (h _ (napqesDecryptBytes_nil key aad))
  · exact fun hne _ h => authenticated_of_napqesDecryptBytes hne h
  · intro h hnul
    obtain ⟨bin, hbin, hauth⟩ := h _ (napqesDecryptStr_nul hnul key aad)
    rw [decodedInput_nul hnul, Option.some.injEq] at hbin
    subst hbin
    exact not_authenticated_nil _ _ _ hauth
  · exact fun hne _ h => authenticated_of_napqesDecryptStr hne h
  · exact fun _ _ _ _ _ h => authenticated_of_napqesDecryptBytesV8 h
  · exact fun _ _ _ _ _ h => authenticated_of_napqesDecryptStrV8 h

/-- `napqes_decrypt_bytes(ct, 0, …)` returns the empty string under every key, and the empty input
carries no tag. -/
theorem not_authenticated_empty :
    ¬ ∀ (H : Hmac) (noise : Rust.Noise) (ciphertext : List UInt8) (key : List UInt64)
      (aad buf : List UInt8), napqesDecryptBytes H noise ciphertext key aad = .ok buf →
        Authenticated H (keyBytes key) aad aadLenWidthV7 ciphertext := fun h =>
  not_authenticated_nil _ _ _
    (h zeroHmac (fun _ _ _ => false) [] [1000003] [] [0]
      (napqesDecryptBytes_nil [1000003] []))

end Napqes.C
