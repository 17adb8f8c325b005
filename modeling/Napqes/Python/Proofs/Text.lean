import Napqes.Python.Text

/-!
# Base64 in Python

What `b64encode` writes `b64decode` reads: each group of four characters brings its loop back to the
state it began the group in.
-/

namespace Napqes.Python

open Base64 (code)

theorem base64Value_code : ∀ v < 64, base64Value (code v) = some v := by decide

theorem code_ne_pad {v : Nat} (hv : v < 64) : code v ≠ 0x3D := by
  intro h
  have hvalue := base64Value_code v hv
  rw [h] at hvalue
  cases hvalue

theorem code_ne_colon {v : Nat} (hv : v < 64) : code v ≠ 0x3A := by
  intro h
  have hvalue := base64Value_code v hv
  rw [h] at hvalue
  cases hvalue

/-! ## The decoding loop -/

section
variable (s : List Nat) (l pads : Nat) (out : List UInt8)

theorem a2bBase64Loop_first {v : Nat} (hv : v < 64) :
    a2bBase64Loop (code v :: s) 0 l pads out = a2bBase64Loop s 1 v 0 out := by
  rw [a2bBase64Loop, if_neg (code_ne_pad hv), base64Value_code v hv]
  rfl

/-- The second character of a group closes its first byte. -/
theorem a2bBase64Loop_second {a b : Nat} (hb : b < 16) :
    a2bBase64Loop (code (a % 4 * 16 + b) :: s) 1 (a / 4) pads out =
      a2bBase64Loop s 2 b 0 (out ++ [UInt8.ofNat a]) := by
  have hbyte : (a / 4) <<< 2 ||| (a % 4 * 16 + b) >>> 4 = a := by
    rw [Nat.shiftRight_eq_div_pow, shiftLeft_or_eq (by omega)]
    omega
  have hleft : (a % 4 * 16 + b) &&& 0x0F = b := by
    rw [show (0x0F : Nat) = 2 ^ 4 - 1 from rfl, Nat.and_two_pow_sub_one_eq_mod]
    omega
  rw [a2bBase64Loop, if_neg (code_ne_pad (by omega)), base64Value_code _ (by omega)]
  dsimp only
  rw [if_neg (by omega), if_pos rfl, hbyte, hleft]

/-- The third one closes its second byte. -/
theorem a2bBase64Loop_third {b c : Nat} (hc : c < 4) :
    a2bBase64Loop (code (b % 16 * 4 + c) :: s) 2 (b / 16) pads out =
      a2bBase64Loop s 3 c 0 (out ++ [UInt8.ofNat b]) := by
  have hbyte : (b / 16) <<< 4 ||| (b % 16 * 4 + c) >>> 2 = b := by
    rw [Nat.shiftRight_eq_div_pow, shiftLeft_or_eq (by omega)]
    omega
  have hleft : (b % 16 * 4 + c) &&& 0x03 = c := by
    rw [show (0x03 : Nat) = 2 ^ 2 - 1 from rfl, Nat.and_two_pow_sub_one_eq_mod]
    omega
  rw [a2bBase64Loop, if_neg (code_ne_pad (by omega)), base64Value_code _ (by omega)]
  dsimp only
  rw [if_neg (by omega), if_neg (by omega), if_pos rfl, hbyte, hleft]

theorem a2bBase64Loop_fourth (c : Nat) :
    a2bBase64Loop (code (c % 64) :: s) 3 (c / 64) pads out =
      a2bBase64Loop s 0 0 0 (out ++ [UInt8.ofNat c]) := by
  have hbyte : (c / 64) <<< 6 ||| c % 64 = c := by
    rw [shiftLeft_or_eq (by omega)]
    omega
  rw [a2bBase64Loop, if_neg (code_ne_pad (by omega)), base64Value_code _ (by omega)]
  dsimp only
  rw [if_neg (by omega), if_neg (by omega), if_neg (by omega), hbyte]

end

theorem a2bBase64Loop_b64encode (x out : List UInt8) :
    a2bBase64Loop (b64encode x) 0 0 0 out = .ok (out ++ x) := by
  unfold b64encode Base64.text
  induction x using Base64.encode.induct generalizing out with
  | case1 a b c rest ih =>
      have ha := a.toNat_lt
      have hb := b.toNat_lt
      have hc := c.toNat_lt
      rw [Base64.encode, a2bBase64Loop_first _ _ _ _ (by omega),
        a2bBase64Loop_second _ _ _ (by omega), a2bBase64Loop_third _ _ _ (by omega),
        a2bBase64Loop_fourth, ih]
      simp
  | case2 a =>
      have ha := a.toNat_lt
      have hsecond := a2bBase64Loop_second [Base64.padCode, Base64.padCode] 0 out (a := a.toNat)
        (show 0 < 16 by omega)
      rw [Base64.encode, a2bBase64Loop_first _ _ _ _ (by omega)]
      rw [Nat.add_zero] at hsecond
      rw [hsecond, UInt8.ofNat_toNat]
      rfl
  | case3 a b =>
      have ha := a.toNat_lt
      have hb := b.toNat_lt
      have hthird := a2bBase64Loop_third [Base64.padCode] 0 (out ++ [UInt8.ofNat a.toNat])
        (b := b.toNat) (show 0 < 4 by omega)
      rw [Nat.add_zero] at hthird
      rw [Base64.encode, a2bBase64Loop_first _ _ _ _ (by omega),
        a2bBase64Loop_second _ _ _ (by omega), hthird, UInt8.ofNat_toNat, UInt8.ofNat_toNat,
        List.append_assoc]
      rfl
  | case4 => rw [Base64.encode, a2bBase64Loop, if_pos rfl, List.append_nil]

theorem colon_not_mem_b64encode (x : List UInt8) : 0x3A ∉ b64encode x := by
  intro h
  exact Base64.forall_mem_encode (P := fun c => c ≠ 0x3A) (fun _ => code_ne_colon)
    (by decide) x _ h rfl

theorem b64decode_b64encode (x : List UInt8) : b64decode (b64encode x) = .ok x := by
  have hascii : (b64encode x).all (· < 0x80) = true :=
    List.all_eq_true.mpr fun c hc => decide_eq_true (Base64.lt_of_mem_text c hc)
  rw [b64decode, if_pos hascii, a2bBase64Loop_b64encode, List.nil_append]

/-! ## The string functions -/

section
variable (H : Hmac) (noise : Noise) (mathSqrt : Nat → Nat)

/-- `decrypt_str` opens a text as `decrypt_bytes` its bytes. -/
theorem decryptStr_b64encode (U : UnicodeTables) (legacyNoise : Int → Noise) (x : List UInt8)
    (key : List Nat) (aad : List UInt8) :
    decryptStr H noise mathSqrt U legacyNoise (b64encode x) key aad false false =
      decryptBytes H noise mathSqrt x key aad := by
  rw [decryptStr, if_pos (colon_not_mem_b64encode x), b64decode_b64encode, ok_bind,
    decryptBytesWith_default]

theorem decryptStrV8_b64encode (x : List UInt8) (primes : List Nat) (sk aad : List UInt8) :
    decryptStrV8 H mathSqrt (b64encode x) primes sk aad =
      decryptBytesV8 H mathSqrt x primes sk aad := by
  rw [decryptStrV8, b64decode_b64encode, ok_bind]

end

end Napqes.Python
