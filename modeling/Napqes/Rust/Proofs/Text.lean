import Napqes.Misc.Base64
import Napqes.Rust.Text

/-!
# The base64 engine of the Rust port

What the crate documents of `STANDARD`: the text of RFC 4648 with its padding, and no other text is
decoded.
-/

namespace Napqes.Rust

theorem asBytes_inj {s t : Str} (h : s.asBytes = t.asBytes) : s = t := by
  have hencode : s.utf8Encode = t.utf8Encode := by
    unfold List.utf8Encode
    exact congrArg List.toByteArray h
  have hdecode := congrArg ByteArray.utf8Decode? hencode
  rw [List.utf8Decode?_utf8Encode, List.utf8Decode?_utf8Encode] at hdecode
  exact congrArg Array.toList (Option.some.inj hdecode)

/-- The canonical engine. -/
structure Base64Engine.IsStandard (standard : Base64Engine) : Prop where
  codepoints_encode : ∀ x, (standard.encode x).codepoints = Base64.text x
  decode_eq_ok_iff : ∀ bytes x,
    standard.decode bytes = .ok x ↔ bytes = (standard.encode x).asBytes

section
variable {H : Hmac} {noise : Noise} {standard : Base64Engine} {key : List Nat} {aad : List UInt8}

theorem encryptStr_eq_ok_iff {message : Str} {generateNonce : RustM String (FixedBytes nonceSize)}
    {text : Str} :
    encryptStr H noise standard message key aad generateNonce = .ok text ↔
      ∃ c, encryptBytes H noise message key aad generateNonce = .ok c ∧
        text = standard.encode c := by
  rw [encryptStr]
  cases hkey : validateKey key with
  | error e => simp [encryptBytes, hkey]
  | ok u =>
      rw [ok_bind, bind_eq_ok]
      exact exists_congr fun c =>
        and_congr_right' ⟨fun h => (Except.ok.inj h).symm, fun h => h ▸ rfl⟩

/-- `decrypt_str` opens the text of a ciphertext and no other text. -/
theorem decryptStr_eq_ok_iff (hstandard : standard.IsStandard) {text message : Str} :
    decryptStr H noise standard text key aad = .ok message ↔
      ∃ c, text = standard.encode c ∧ decryptBytes H noise c key aad = .ok message := by
  rw [decryptStr]
  cases hdecode : standard.decode text.asBytes with
  | error e =>
      refine iff_of_false (fun h => by cases h) ?_
      rintro ⟨c, rfl, -⟩
      rw [(hstandard.decode_eq_ok_iff _ c).mpr rfl] at hdecode
      cases hdecode
  | ok x =>
      have hx := asBytes_inj ((hstandard.decode_eq_ok_iff _ x).mp hdecode)
      constructor
      · exact fun h => ⟨x, hx, h⟩
      · rintro ⟨c, hc, h⟩
        rw [(hstandard.decode_eq_ok_iff _ c).mpr (congrArg Str.asBytes hc)] at hdecode
        rwa [← Except.ok.inj hdecode]

end

end Napqes.Rust
