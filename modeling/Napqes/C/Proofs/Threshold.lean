import Napqes.C.Proofs.Tokens
import Napqes.Python.Proofs.Block

/-!
# The noise threshold without a 128-bit type

On a compiler without a 128-bit type `mulhi64` recombines four 32-bit products. No product and no
sum of it wraps, and the threshold is the one the other ports compute in wider integers.
-/

namespace Napqes.C

/-! ## Limbs -/

theorem and_low32 (v : Nat) : v &&& 0xFFFFFFFF = v % 2 ^ 32 := Nat.and_two_pow_sub_one_eq_mod v 32

/-- The schoolbook product of two numbers of two 32-bit digits. -/
theorem mul_eq_limbs (a b : Nat) :
    a * b = a / 2 ^ 32 * (b / 2 ^ 32) * 2 ^ 64 +
      (a % 2 ^ 32 * (b / 2 ^ 32) + a / 2 ^ 32 * (b % 2 ^ 32)) * 2 ^ 32 +
      a % 2 ^ 32 * (b % 2 ^ 32) := by
  conv_lhs => rw [← Nat.div_add_mod a (2 ^ 32), ← Nat.div_add_mod b (2 ^ 32)]
  ring

theorem limb_mul_le {x y : Nat} (hx : x < 2 ^ 32) (hy : y < 2 ^ 32) :
    x * y ≤ (2 ^ 32 - 1) * (2 ^ 32 - 1) := Nat.mul_le_mul (by omega) (by omega)

theorem limb_products_le {a b : Nat} (ha : a < 2 ^ 64) (hb : b < 2 ^ 64) :
    a % 2 ^ 32 * (b % 2 ^ 32) ≤ (2 ^ 32 - 1) * (2 ^ 32 - 1) ∧
      a % 2 ^ 32 * (b / 2 ^ 32) ≤ (2 ^ 32 - 1) * (2 ^ 32 - 1) ∧
      a / 2 ^ 32 * (b % 2 ^ 32) ≤ (2 ^ 32 - 1) * (2 ^ 32 - 1) ∧
      a / 2 ^ 32 * (b / 2 ^ 32) ≤ (2 ^ 32 - 1) * (2 ^ 32 - 1) := by
  have halow : a % 2 ^ 32 < 2 ^ 32 := Nat.mod_lt a (Nat.two_pow_pos 32)
  have hblow : b % 2 ^ 32 < 2 ^ 32 := Nat.mod_lt b (Nat.two_pow_pos 32)
  have hahigh : a / 2 ^ 32 < 2 ^ 32 := by omega
  have hbhigh : b / 2 ^ 32 < 2 ^ 32 := by omega
  exact ⟨limb_mul_le halow hblow, limb_mul_le halow hbhigh, limb_mul_le hahigh hblow,
    limb_mul_le hahigh hbhigh⟩

/-- Nothing wraps in the limb fallback, and it gives the high half of the product. -/
theorem mulhi64LimbsNoWrap_eq {a b : Nat} (ha : a < 2 ^ 64) (hb : b < 2 ^ 64) :
    mulhi64LimbsNoWrap a b = some (a * b / 2 ^ 64) := by
  obtain ⟨hll, hlh, hhl, hhh⟩ := limb_products_le ha hb
  have hprod : a * b < 2 ^ 64 * 2 ^ 64 := Nat.mul_lt_mul'' ha hb
  have hsplit := mul_eq_limbs a b
  simp only [mulhi64LimbsNoWrap, and_low32, Nat.shiftRight_eq_div_pow, mulNoWrap, addNoWrap]
  generalize a % 2 ^ 32 * (b % 2 ^ 32) = ll at *
  generalize a % 2 ^ 32 * (b / 2 ^ 32) = lh at *
  generalize a / 2 ^ 32 * (b % 2 ^ 32) = hl at *
  generalize a / 2 ^ 32 * (b / 2 ^ 32) = hh at *
  generalize a * b = ab at *
  simp only [if_pos (show ll < 2 ^ 64 by omega), if_pos (show lh < 2 ^ 64 by omega),
    if_pos (show hl < 2 ^ 64 by omega), if_pos (show hh < 2 ^ 64 by omega),
    if_pos (show ll / 2 ^ 32 + lh % 2 ^ 32 < 2 ^ 64 by omega),
    if_pos (show ll / 2 ^ 32 + lh % 2 ^ 32 + hl % 2 ^ 32 < 2 ^ 64 by omega),
    if_pos (show hh + lh / 2 ^ 32 < 2 ^ 64 by omega),
    if_pos (show hh + lh / 2 ^ 32 + hl / 2 ^ 32 < 2 ^ 64 by omega), Option.bind_eq_bind,
    Option.bind_some]
  have htotal :
      hh + lh / 2 ^ 32 + hl / 2 ^ 32 + (ll / 2 ^ 32 + lh % 2 ^ 32 + hl % 2 ^ 32) / 2 ^ 32 =
        ab / 2 ^ 64 := by omega
  rw [htotal, if_pos (show ab / 2 ^ 64 < 2 ^ 64 by omega)]

/-- The limbs give the high half of the product. -/
theorem toNat_mulhi64Limbs (a b : UInt64) :
    (mulhi64Limbs a b).toNat = mulhi64 a.toNat b.toNat := by
  obtain ⟨hll, hlh, hhl, hhh⟩ := limb_products_le a.toNat_lt b.toNat_lt
  have hprod : a.toNat * b.toNat < 2 ^ 64 * 2 ^ 64 := Nat.mul_lt_mul'' a.toNat_lt b.toNat_lt
  have hsplit := mul_eq_limbs a.toNat b.toNat
  simp only [mulhi64Limbs, mulhi64, UInt64.toNat_add, UInt64.toNat_mul, UInt64.toNat_and,
    UInt64.toNat_shiftRight, Nat.shiftRight_eq_div_pow, UInt64.reduceToNat, Nat.reduceMod,
    and_low32]
  generalize a.toNat % 2 ^ 32 * (b.toNat % 2 ^ 32) = ll at *
  generalize a.toNat % 2 ^ 32 * (b.toNat / 2 ^ 32) = lh at *
  generalize a.toNat / 2 ^ 32 * (b.toNat % 2 ^ 32) = hl at *
  generalize a.toNat / 2 ^ 32 * (b.toNat / 2 ^ 32) = hh at *
  generalize a.toNat * b.toNat = ab at *
  omega

/-! ## Threshold -/

variable {H : Hmac}

/-- The high half of `tau * delta` is below `delta`. -/
theorem mulhi64_lt (tau : Nat) (htau : tau < 2 ^ 64) :
    mulhi64 tau (thetaMax - thetaMin) < thetaMax - thetaMin := by
  have hpos : 0 < thetaMax - thetaMin := by decide
  rw [mulhi64, Nat.shiftRight_eq_div_pow, Nat.div_lt_iff_lt_mul (Nat.two_pow_pos 64), Nat.mul_comm]
  exact Nat.mul_lt_mul_of_pos_left htau hpos

theorem deriveNoiseThresholdV8_range (kb nonce : List UInt8) :
    thetaMin ≤ deriveNoiseThresholdV8 H kb nonce ∧
      deriveNoiseThresholdV8 H kb nonce < thetaMax := by
  have htau : u64FromBe8 (hmacWithSep H kb nonce 0x02 []).toList < 2 ^ 64 := by
    rw [u64FromBe8_eq]
    exact Nat.lt_of_lt_of_eq (beNat_lt _) (by simp)
  have hlt := mulhi64_lt _ htau
  rw [deriveNoiseThresholdV8]
  omega

/-- The threshold computed from limbs, in 64-bit arithmetic. -/
theorem toNat_deriveNoiseThresholdV8Limbs (kb nonce : List UInt8) :
    (deriveNoiseThresholdV8Limbs H kb nonce).toNat = deriveNoiseThresholdV8 H kb nonce := by
  have htau : u64FromBe8 (hmacWithSep H kb nonce 0x02 []).toList < 2 ^ 64 := by
    rw [u64FromBe8_eq]
    exact Nat.lt_of_lt_of_eq (beNat_lt _) (by simp)
  have hdelta : (UInt64.ofNat thetaMax - UInt64.ofNat thetaMin).toNat = thetaMax - thetaMin := by
    decide
  have hmax : thetaMax < 2 ^ 64 := by decide
  have hrange := (@deriveNoiseThresholdV8_range H kb nonce).2
  rw [deriveNoiseThresholdV8Limbs, UInt64.toNat_add, toNat_mulhi64Limbs, hdelta,
    UInt64.toNat_ofNat_of_lt' htau, UInt64.toNat_ofNat_of_lt' (by decide)]
  rw [deriveNoiseThresholdV8] at hrange ⊢
  exact Nat.mod_eq_of_lt (by omega)

/-- On every compiler the same threshold: the limb fallback of `mulhi64` is the high half of the
product and nothing in it wraps, and the threshold is that of the other two ports and lies in the
noise interval. -/
theorem threshold_portable :
    (∀ a b : UInt64, mulhi64LimbsNoWrap a.toNat b.toNat = some (a.toNat * b.toNat / 2 ^ 64) ∧
      (mulhi64Limbs a b).toNat = a.toNat * b.toNat / 2 ^ 64) ∧
    ∀ (H : Hmac) (kb nonce : List UInt8),
      (deriveNoiseThresholdV8Limbs H kb nonce).toNat = Rust.deriveNoiseThresholdV8 H kb nonce ∧
      (deriveNoiseThresholdV8Limbs H kb nonce).toNat = Python.deriveNoiseThresholdV8 H kb nonce ∧
      deriveNoiseThresholdV8 H kb nonce = Rust.deriveNoiseThresholdV8 H kb nonce ∧
      thetaMin ≤ (deriveNoiseThresholdV8Limbs H kb nonce).toNat ∧
      (deriveNoiseThresholdV8Limbs H kb nonce).toNat < thetaMax := by
  refine ⟨?_, ?_⟩
  · intro a b
    refine ⟨mulhi64LimbsNoWrap_eq a.toNat_lt b.toNat_lt, ?_⟩
    rw [toNat_mulhi64Limbs, mulhi64, Nat.shiftRight_eq_div_pow]
  · intro H kb nonce
    obtain ⟨hlow, hhigh⟩ := @deriveNoiseThresholdV8_range H kb nonce
    have hrust : deriveNoiseThresholdV8 H kb nonce = Rust.deriveNoiseThresholdV8 H kb nonce :=
      deriveNoiseThresholdV8_eq H kb nonce
    rw [toNat_deriveNoiseThresholdV8Limbs, Python.deriveNoiseThresholdV8_eq]
    exact ⟨hrust, hrust, hrust, hlow, hhigh⟩

end Napqes.C
