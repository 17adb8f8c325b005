import Napqes.Python.BlockV7

/-!
# Legacy ciphertexts in Python (`napqes.py:473-491, 683-704, 753-771, 887-931, 1357-1396`)

`decrypt_bytes` and `decrypt_str` with their flags: v6 ciphertexts carry LEB128 tokens, v5 ones no
tag, and the colon-separated v3 and v2 ones their own noise probability as well. A text is its code
points; `int`, `bytes.fromhex`, `str.split` and `base64.b64decode` are those of the standard
library, with the tables of the Unicode database as a parameter and shortened messages.
-/

namespace Napqes.Python

/-! ## Library functions on text -/

/-- What `str` and `int` ask the Unicode database: white space, and the value of a decimal digit. -/
structure UnicodeTables where
  isSpace : Nat → Bool
  decimal : Nat → Option Nat

/-- The white space of C's `isspace`. -/
def isAsciiSpace (c : Nat) : Bool := (0x09 ≤ c && c ≤ 0x0D) || c == 0x20

/-- The value of a digit or letter. -/
def digitValue (c : Nat) : Option Nat :=
  if 0x30 ≤ c ∧ c ≤ 0x39 then some (c - 0x30)
  else if 0x61 ≤ c ∧ c ≤ 0x7A then some (c - 0x61 + 10)
  else if 0x41 ≤ c ∧ c ≤ 0x5A then some (c - 0x41 + 10)
  else none

/-- The value and the number of some digits, with single underscores between them; `after` says
whether a digit stands in front. -/
def scanDigits (base : Nat) : Nat → Nat → Bool → List Nat → Option (Nat × Nat)
  | value, count, after, [] => if after then some (value, count) else none
  | value, count, after, c :: cs =>
      if c = 0x5F then
        if after then scanDigits base value count false cs else none
      else
        match digitValue c with
        | some d =>
            if d < base then scanDigits base (value * base + d) (count + 1) true cs else none
        | none => none

def stripSpace (s : List Nat) : List Nat :=
  ((s.dropWhile isAsciiSpace).reverse.dropWhile isAsciiSpace).reverse

/-- The limit on the digits of a decimal literal, `sys.get_int_max_str_digits()`. -/
def intMaxStrDigits : Nat := 4300

section
variable (U : UnicodeTables)

/-- Spaces and digits outside ASCII as ASCII ones; anything else there is no part of a literal. -/
def asciiOfDecimalOrSpace (c : Nat) : Nat :=
  if c < 0x80 then c
  else if U.isSpace c then 0x20
  else
    match U.decimal c with
    | some d => 0x30 + d
    | none => 0x3F

/-- `int(s, base)` for bases 10 and 16. -/
def intOfStr (base : Nat) (s : List Nat) : PyM Int :=
  let s := stripSpace (s.map (asciiOfDecimalOrSpace U))
  let (negative, s) :=
    match s with
    | 0x2B :: s => (false, s)
    | 0x2D :: s => (true, s)
    | s => (false, s)
  let s :=
    if base = 16 ∧ (s.take 2 = [0x30, 0x78] ∨ s.take 2 = [0x30, 0x58]) then
      match s.drop 2 with
      | 0x5F :: s => s
      | s => s
    else s
  match scanDigits base 0 0 false s with
  | some (value, count) =>
      if base = 10 ∧ count > intMaxStrDigits then
        valueError s!"Exceeds the limit ({intMaxStrDigits} digits) for integer string conversion"
      else .ok (if negative then -(value : Int) else value)
  | none => valueError s!"invalid literal for int() with base {base}"

/-- `s.split()`. -/
def splitSpace (s : List Nat) : List (List Nat) := (s.splitOnP U.isSpace).filter (· ≠ [])

end

/-- `s.split(sep, maxsplit)`. -/
def splitSep (sep : Nat) : Nat → List Nat → List (List Nat)
  | 0, s => [s]
  | maxsplit + 1, s =>
      match s.dropWhile (· ≠ sep) with
      | [] => [s]
      | _ :: rest => s.takeWhile (· ≠ sep) :: splitSep sep maxsplit rest

/-- The value of a hexadecimal digit. -/
def hexValue (c : Nat) : Option Nat := (digitValue c).filter (· < 16)

/-- `bytes.fromhex(s)`: white space may stand between the bytes. -/
def bytesFromHex : List Nat → PyM (List UInt8)
  | [] => .ok []
  | [c] =>
      if isAsciiSpace c then .ok []
      else valueError "non-hexadecimal number found in fromhex() arg"
  | c :: c' :: s =>
      if isAsciiSpace c then bytesFromHex (c' :: s)
      else
        match hexValue c, hexValue c' with
        | some hi, some lo => do return UInt8.ofNat (hi <<< 4 ||| lo) :: (← bytesFromHex s)
        | _, _ => valueError "non-hexadecimal number found in fromhex() arg"

/-- The value of a character of the base64 alphabet. -/
def base64Value (c : Nat) : Option Nat :=
  if 0x41 ≤ c ∧ c ≤ 0x5A then some (c - 0x41)
  else if 0x61 ≤ c ∧ c ≤ 0x7A then some (c - 0x61 + 26)
  else if 0x30 ≤ c ∧ c ≤ 0x39 then some (c - 0x30 + 52)
  else if c = 0x2B then some 62
  else if c = 0x2F then some 63
  else none

/-- The loop of `binascii.a2b_base64`: the place in the group of four, the bits left over, and the
padding characters of the group. Characters outside the alphabet are skipped, and padding that
completes a group ends the input. -/
def a2bBase64Loop : List Nat → Nat → Nat → Nat → List UInt8 → PyM (List UInt8)
  | [], quadPos, _, _, out =>
      if quadPos = 0 then .ok out
      else if quadPos = 1 then
        valueError ("Invalid base64-encoded string: number of data characters cannot be 1 more " ++
          "than a multiple of 4")
      else valueError "Incorrect padding"
  | c :: s, quadPos, leftchar, pads, out =>
      if c = 0x3D then
        if quadPos ≥ 2 then
          if quadPos + (pads + 1) ≥ 4 then .ok out
          else a2bBase64Loop s quadPos leftchar (pads + 1) out
        else a2bBase64Loop s quadPos leftchar pads out
      else
        match base64Value c with
        | none => a2bBase64Loop s quadPos leftchar pads out
        | some v =>
            if quadPos = 0 then a2bBase64Loop s 1 v 0 out
            else if quadPos = 1 then
              a2bBase64Loop s 2 (v &&& 0x0F) 0 (out ++ [UInt8.ofNat (leftchar <<< 2 ||| v >>> 4)])
            else if quadPos = 2 then
              a2bBase64Loop s 3 (v &&& 0x03) 0 (out ++ [UInt8.ofNat (leftchar <<< 4 ||| v >>> 2)])
            else a2bBase64Loop s 0 0 0 (out ++ [UInt8.ofNat (leftchar <<< 6 ||| v)])

/-- `base64.b64decode(s)`. -/
def b64decode (s : List Nat) : PyM (List UInt8) :=
  if s.all (· < 0x80) then a2bBase64Loop s 0 0 0 []
  else valueError "string argument should contain only ASCII characters"

/-- The conversion of an integer to a `float`, which `int / float` begins with: the integer itself
stands for the number it is rounded to. -/
def floatOfInt (n : Int) : PyM Int :=
  if n.natAbs < 2 ^ 1024 - 2 ^ 970 then .ok n
  else raise (.overflowError "int too large to convert to float")

/-! ## Decryption -/

section
variable (H : Hmac) (noise : Noise) (mathSqrt : Nat → Nat)

/-- The loop of `_decrypt_with_noise_p` (`napqes.py:697-702`) on integers, which v2 tokens are. -/
def decryptTokensInt (key : List Nat) (kb nonce : List UInt8) :
    List Int → Nat → Nat → List Int → PyM (List Int)
  | [], _, _, padded => .ok padded
  | token :: cypher, ctPos, realIdx, padded => do
      let isNoise ← isNoisePos noise kb nonce ctPos
      if !isNoise then
        let k ← keyAt key realIdx
        let addend ← deriveAddend H kb nonce realIdx k
        let cp ← floorDiv (token - addend) k
        decryptTokensInt key kb nonce cypher (ctPos + 1) (realIdx + 1) (padded ++ [cp])
      else decryptTokensInt key kb nonce cypher (ctPos + 1) realIdx padded

/-- On natural numbers it is the loop of the other formats. -/
theorem decryptTokensInt_map_natCast (key : List Nat) (kb nonce : List UInt8) (cypher : List Nat)
    (ctPos realIdx : Nat) (padded : List Int) :
    decryptTokensInt H noise key kb nonce (cypher.map (↑)) ctPos realIdx padded =
      decryptTokensV7 H noise key kb nonce cypher ctPos realIdx padded := by
  induction cypher generalizing ctPos realIdx padded with
  | nil => rfl
  | cons token cypher ih =>
      rw [List.map_cons, decryptTokensInt, decryptTokensV7]
      simp only [ih]

/-- `_decrypt_with_noise_p` (`napqes.py:683-704`) with the probability that `noise` stands for. -/
def decryptWithNoisePInt (nonce : List UInt8) (cypher : List Int) (key : List Nat) :
    PyM (List Int) := do
  validateKey mathSqrt key
  let kb ← keyBytes key
  unpadMessageV7 (← decryptTokensInt H noise key kb nonce cypher 0 0 [])

/-- `_decode_v5_unauth` (`napqes.py:473-491`). -/
def decodeV5Unauth (ciphertext : List UInt8) (key : List Nat) : PyM (List Nat) :=
  let got := ciphertext.length
  if ciphertext.length < nonceSize then
    valueError
      (s!"Ciphertext too short: {got} bytes; header requires at least {nonceSize} bytes " ++
      "(nonce).")
  else
    let nonce := ciphertext.take nonceSize
    let tokenBlob := ciphertext.drop nonceSize
    match b128DecodeTokens tokenBlob with
    | .error (.indexError _) =>
        valueError
          ("Legacy v5 payload contains a truncated varint (continuation bit set on final " ++
          "byte); ciphertext is malformed.")
    | .error e => .error e
    | .ok tokens => do (← decrypt H noise mathSqrt nonce tokens key).mapM chrInt

/-- `decrypt_bytes` (`napqes.py:887-931`) with its flags. -/
def decryptBytesWith (ciphertext : List UInt8) (key : List Nat) (aad : List UInt8)
    (allowLegacyUnauthenticated legacyV6Varint : Bool) : PyM (List Nat) := do
  validateKey mathSqrt key
  if ciphertext.length ≥ nonceSize + tagSize then
    let kb ← keyBytes key
    let payload := ciphertext.take (ciphertext.length - tagSize)
    let recvTag := ciphertext.drop (ciphertext.length - tagSize)
    let calcTag ← computeAuthTag H kb aad payload aadLenWidthV7
    if recvTag = calcTag then
      let nonce := payload.take nonceSize
      let maskedBlob := payload.drop nonceSize
      let ks ← varintKeystream H kb nonce maskedBlob.length
      let tokenBlob := xorBytes maskedBlob ks
      let tokens ← (if legacyV6Varint then b128DecodeTokens tokenBlob
        else fixedDecodeTokens tokenBlob)
      (← decrypt H noise mathSqrt nonce tokens key).mapM chrInt
    else if ¬ allowLegacyUnauthenticated then
      valueError "Authentication failed: invalid HMAC tag."
    else decodeV5Unauth H noise mathSqrt ciphertext key
  else if allowLegacyUnauthenticated then decodeV5Unauth H noise mathSqrt ciphertext key
  else
    valueError
      ("Ciphertext is not a valid authenticated v7 payload. To decode legacy v6 payloads " ++
      "(pre-CVF1 fix), set legacy_v6_varint=True. To decode legacy v5 unauthenticated payloads, " ++
      "set allow_legacy_unauthenticated=True.")

theorem decryptBytesWith_default (ciphertext : List UInt8) (key : List Nat) (aad : List UInt8) :
    decryptBytesWith H noise mathSqrt ciphertext key aad false false =
      decryptBytes H noise mathSqrt ciphertext key aad := by
  simp only [decryptBytesWith, decryptBytes, Bool.false_eq_true, not_false_eq_true, ↓reduceIte]

/-- `decrypt_str` (`napqes.py:1357-1396`); `legacyNoise n` stands for the comparison with the stored
probability `n / 255.0`. -/
def decryptStr (U : UnicodeTables) (legacyNoise : Int → Noise) (cypher key : List Nat)
    (aad : List UInt8) (allowLegacyUnauthenticated legacyV6Varint : Bool) : PyM (List Nat) :=
  if 0x3A ∉ cypher then do
    decryptBytesWith H noise mathSqrt (← b64decode cypher) key aad allowLegacyUnauthenticated
      legacyV6Varint
  else if ¬ allowLegacyUnauthenticated then
    valueError ("Ciphertext appears to be a legacy v2/v3 colon-delimited format. These formats " ++
      "carry no integrity protection. To decode them, set allow_legacy_unauthenticated=True.")
  else
    match splitSep 0x3A 2 cypher with
    | [nonceHex, noisePHex, tokenField] => do
        let nonce ← bytesFromHex nonceHex
        let noiseP ← floatOfInt (← intOfStr U 16 noisePHex)
        let tokens ← (if 0x20 ∈ tokenField then (splitSpace U tokenField).mapM (intOfStr U 10)
          else do return (← b128DecodeTokens (← bytesFromHex tokenField)).map (↑))
        (← decryptWithNoisePInt H (legacyNoise noiseP) mathSqrt nonce tokens key).mapM chrInt
    | _ =>
        valueError ("Malformed ciphertext — expected base64 (v6/v5) or " ++
          "'<nonce_hex>:<noise_p_hex>:<tokens>' (v2/v3).")

end

end Napqes.Python
