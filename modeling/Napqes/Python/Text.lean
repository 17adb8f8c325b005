import Napqes.Misc.Base64
import Napqes.Python.Legacy

/-!
# Ciphertexts as text in Python (`napqes.py:1326-1354`)

`base64.b64encode(x).decode('ascii')` is the RFC 4648 text of `x`; `decrypt_str` is with the legacy
formats.
-/

namespace Napqes.Python

/-- `base64.b64encode(x).decode('ascii')`. -/
def b64encode (x : List UInt8) : List Nat := Base64.text x

section
variable (H : Hmac) (mathSqrt : Nat → Nat)

/-- `encrypt_str` (`napqes.py:1348-1354`). -/
def encryptStr (noise : Noise) (message key : List Nat) (aad nonce : List UInt8) :
    PyM (List Nat) := do
  return b64encode (← encryptBytes H noise mathSqrt message key aad nonce)

/-- `encrypt_str_v8` (`napqes.py:1326-1332`). -/
def encryptStrV8 (message primes : List Nat) (sk aad : List UInt8) (padProfile : PadProfile) :
    PyM (List Nat) := do
  return b64encode (← encryptBytesV8 H mathSqrt message primes sk aad padProfile)

/-- `decrypt_str_v8` (`napqes.py:1335-1338`). -/
def decryptStrV8 (cypher primes : List Nat) (sk aad : List UInt8) : PyM (List Nat) := do
  decryptBytesV8 H mathSqrt (← b64decode cypher) primes sk aad

end

end Napqes.Python
