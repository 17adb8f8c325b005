import Napqes.Rust.BlockV7

/-!
# Ciphertexts as text in Rust (`lib.rs:1375-1399`)

The base64 engine is a crate of its own; here it is a parameter.
-/

namespace Napqes.Rust

/-- `base64::engine::general_purpose::STANDARD`: `encode`, and `decode` with the text of its
errors. -/
structure Base64Engine where
  encode : List UInt8 → Str
  decode : List UInt8 → Except String (List UInt8)

section
variable (H : Hmac) (noise : Noise) (standard : Base64Engine)

/-- `encrypt_str` (`lib.rs:1375-1385`). -/
def encryptStr (message : Str) (key : List Nat) (aad : List UInt8)
    (generateNonce : RustM String (FixedBytes nonceSize)) : RustM String Str := do
  validateKey key
  return standard.encode (← encryptBytes H noise message key aad generateNonce)

/-- `decrypt_str` (`lib.rs:1388-1399`). -/
def decryptStr (cypher : Str) (key : List Nat) (aad : List UInt8) : RustM String Str :=
  match standard.decode cypher.asBytes with
  | .ok bytes => decryptBytes H noise bytes key aad
  | .error e => err s!"base64 decode error: {e}"

end

end Napqes.Rust
