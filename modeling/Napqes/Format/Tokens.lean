import Napqes.Misc.Schedule
import Napqes.Rust.Derive

/-!
# Tokens and keystream of the v8 formats

What the token layer of the v8 formats is, apart from how a port computes it. Under a fixed
subkey and nonce each codepoint `c` becomes the token `c * k + a` for the key element `k` of
its index; the noise oracle places it in the slot schedule of `Napqes.Schedule`, and the
tokens, as eight-byte fields, are masked with a counter-mode keystream.
-/

namespace Napqes

open Rust (addendVal addendInput noiseAddendInput noisePosInput keystreamInput deriveNoiseChar
  deriveNoiseThresholdV8 isNoisePosV8)

/-- At most this many noise tokens stand between two real ones. -/
abbrev noiseCap : Nat := 19

/-- The key element used for real index `i`; the tuple is used cyclically. -/
def keyElem (primes : List Nat) (i : Nat) : Nat := (primes[i % primes.length]?).getD 0

theorem getElem?_keyElem {primes : List Nat} (h : primes ≠ []) (i : Nat) :
    primes[i % primes.length]? = some (keyElem primes i) := by
  have hpos : 0 < primes.length := List.length_pos_iff.mpr h
  simp [keyElem, Nat.mod_lt i hpos]

theorem keyElem_range {primes : List Nat} (h : KeyValid primes) (i : Nat) :
    1000000 ≤ keyElem primes i ∧ keyElem primes i ≤ 14999999 :=
  h.range _ (List.mem_of_getElem? (getElem?_keyElem h.nonempty i))

section
variable (H : Hmac) (primes : List Nat) (skFmt nonce : List UInt8)

/-- The noise decision at a position, under the threshold derived for the nonce. -/
def noiseAt (pos : Nat) : Bool :=
  isNoisePosV8 H skFmt nonce pos (deriveNoiseThresholdV8 H skFmt nonce)

/-- The addend of real index `idx`. -/
def realAddend (idx : Nat) : Nat :=
  addendVal (H skFmt (addendInput nonce idx)).toList (keyElem primes idx)

/-- The token that carries codepoint `c` at real index `idx`. -/
def realToken (idx c : Nat) : Nat :=
  c * keyElem primes idx + realAddend H primes skFmt nonce idx

/-- The noise token at position `pos` while real index `idx` is awaited. -/
def fillerToken (idx pos : Nat) : Nat :=
  deriveNoiseChar H skFmt nonce pos * keyElem primes idx +
    addendVal (H skFmt (noiseAddendInput nonce pos)).toList (keyElem primes idx)

/-- Read a codepoint out of a token, if it has the form of a real token. -/
def recoverToken (idx token : Nat) : Option Nat :=
  let k := keyElem primes idx
  let a := realAddend H primes skFmt nonce idx
  if token < a ∨ (token - a) % k ≠ 0 ∨ ¬ IsScalar ((token - a) / k) then none
  else some ((token - a) / k)

/-- The two checks on a token, in the order in which the decoders make them. -/
theorem recoverToken_eq (idx token : Nat) :
    recoverToken H primes skFmt nonce idx token =
      let k := keyElem primes idx
      let a := realAddend H primes skFmt nonce idx
      if token < a ∨ (token - a) % k ≠ 0 then none
      else if IsScalar ((token - a) / k) then some ((token - a) / k) else none := by
  simp only [recoverToken]
  generalize realAddend H primes skFmt nonce idx = a
  by_cases hform : token < a ∨ (token - a) % keyElem primes idx ≠ 0
  · rw [if_pos hform, if_pos (by rcases hform with h | h <;> simp [h])]
  · rw [if_neg hform]
    rw [not_or] at hform
    by_cases hscalar : IsScalar ((token - a) / keyElem primes idx)
    · rw [if_pos hscalar, if_neg (by simp [hform, hscalar])]
    · rw [if_neg hscalar, if_pos (Or.inr (Or.inr hscalar))]

/-- All tokens of a padded codepoint sequence. -/
def tokensOf (cps : List Nat) : List Nat :=
  Schedule.emitAll (noiseAt H skFmt nonce) noiseCap (realToken H primes skFmt nonce)
    (fillerToken H primes skFmt nonce) cps

/-- Read `n` codepoints out of a token list. -/
def readTokens (tokens : List Nat) (n : Nat) : Option (List Nat) :=
  Schedule.decode (noiseAt H skFmt nonce) noiseCap (recoverToken H primes skFmt nonce) tokens
    n 0 0

variable {primes}

/-! ## Bounds -/

/-- A 32-bit value times a key element, plus the addend, stays below `2^56`. -/
theorem affine_lt {c k a : Nat} (hc : c < 2 ^ 32) (hk : k ≤ 14999999) (ha : a < k) :
    c * k + a < 2 ^ 56 := by
  have := Nat.mul_le_mul (Nat.le_of_lt hc) hk
  omega

theorem realAddend_lt (h : KeyValid primes) (idx : Nat) :
    realAddend H primes skFmt nonce idx < keyElem primes idx :=
  Rust.addendVal_lt _ (by have := keyElem_range h idx; omega)

theorem realToken_lt (h : KeyValid primes) (idx : Nat) {c : Nat} (hc : c < 2 ^ 32) :
    realToken H primes skFmt nonce idx c < 2 ^ 56 :=
  affine_lt hc (keyElem_range h idx).2 (realAddend_lt H skFmt nonce h idx)

theorem fillerToken_lt (h : KeyValid primes) (idx pos : Nat) :
    fillerToken H primes skFmt nonce idx pos < 2 ^ 56 := by
  have hrange := keyElem_range h idx
  have hchar := Rust.deriveNoiseChar_lt H skFmt nonce pos
  exact affine_lt (by omega) hrange.2 (Rust.addendVal_lt _ (by omega))

theorem tokensOf_lt (h : KeyValid primes) {cps : List Nat} (hcps : ∀ c ∈ cps, c < 2 ^ 32) :
    ∀ t ∈ tokensOf H primes skFmt nonce cps, t < 2 ^ 56 :=
  Schedule.forall_mem_emitAll _ _ _ _ (fillerToken_lt H skFmt nonce h) cps
    fun idx c hc => realToken_lt H skFmt nonce h idx (hcps c hc)

@[simp] theorem length_tokensOf (cps : List Nat) :
    (tokensOf H primes skFmt nonce cps).length = cps.length * 20 :=
  Schedule.length_emitAll _ _ _ _ _

/-! ## Recovery -/

theorem recoverToken_realToken {idx : Nat} (hpos : 0 < keyElem primes idx) {c : Nat}
    (hc : IsScalar c) :
    recoverToken H primes skFmt nonce idx (realToken H primes skFmt nonce idx c) = some c := by
  have hsub : realToken H primes skFmt nonce idx c - realAddend H primes skFmt nonce idx =
      c * keyElem primes idx := by
    simp [realToken]
  have hge : ¬ realToken H primes skFmt nonce idx c < realAddend H primes skFmt nonce idx := by
    simp [realToken]
  simp [recoverToken, hsub, hge, Nat.mul_div_cancel c hpos, hc]

/-- The tokens of a codepoint sequence read back as the sequence. -/
theorem readTokens_tokensOf (h : KeyValid primes) {cps : List Nat}
    (hcps : ∀ c ∈ cps, IsScalar c) :
    readTokens H primes skFmt nonce (tokensOf H primes skFmt nonce cps) cps.length = some cps :=
  Schedule.decode_emitAll _ _ _ _ _ cps
    fun idx c hc => recoverToken_realToken H skFmt nonce
      (Nat.lt_of_lt_of_le (by decide) (keyElem_range h idx).1) (hcps c hc)

theorem isScalar_of_recoverToken {idx t c : Nat}
    (h : recoverToken H primes skFmt nonce idx t = some c) : IsScalar c := by
  simp only [recoverToken] at h
  split at h
  case isTrue => cases h
  case isFalse hok =>
    cases h
    simp only [not_or, Decidable.not_not] at hok
    exact hok.2.2

/-- What is read out of tokens is a sequence of scalar values. -/
theorem isScalar_of_readTokens {tokens : List Nat} {n : Nat} {cps : List Nat}
    (h : readTokens H primes skFmt nonce tokens n = some cps) : ∀ c ∈ cps, IsScalar c :=
  Schedule.forall_mem_of_decode _ _ _ (fun _ _ _ => isScalar_of_recoverToken H skFmt nonce) h

/-! ## Keystream -/

/-- The first `len` bytes of the counter-mode keystream. -/
def keystream (len : Nat) : List UInt8 :=
  counterStream (fun block => H skFmt (keystreamInput nonce block)) len

@[simp] theorem length_keystream (len : Nat) : (keystream H skFmt nonce len).length = len :=
  length_counterStream (by decide) _ len

/-- Mask, or unmask, a byte string. -/
def maskWith (bs : List UInt8) : List UInt8 := xorBytes bs (keystream H skFmt nonce bs.length)

@[simp] theorem length_maskWith (bs : List UInt8) :
    (maskWith H skFmt nonce bs).length = bs.length := by
  simp [maskWith]

/-- Masking is an involution. -/
@[simp] theorem maskWith_maskWith (bs : List UInt8) :
    maskWith H skFmt nonce (maskWith H skFmt nonce bs) = bs := by
  have hlen : (maskWith H skFmt nonce bs).length = bs.length := length_maskWith H skFmt nonce bs
  rw [maskWith, hlen]
  exact xorBytes_cancel _ _ (by simp)

/-- The masked fields of a codepoint sequence: the body of a block or of a stream chunk. -/
def sealTokens (primes cps : List Nat) : List UInt8 :=
  maskWith H skFmt nonce ((tokensOf H primes skFmt nonce cps).flatMap (beBytes 8))

@[simp] theorem length_sealTokens (primes cps : List Nat) :
    (sealTokens H skFmt nonce primes cps).length = cps.length * 160 := by
  simp only [sealTokens, length_maskWith, length_flatMap_beBytes, length_tokensOf]
  omega

/-- Read `n` codepoints out of a masked body of `n` times 160 bytes. -/
def openTokens (primes : List Nat) (body : List UInt8) (n : Nat) : Option (List Nat) :=
  readTokens H primes skFmt nonce
    ((chunksExact 8 (body.length / 8) (maskWith H skFmt nonce body)).map beNat) n

/-- A sealed sequence opens to itself. -/
theorem openTokens_sealTokens (h : KeyValid primes) {cps : List Nat}
    (hcps : ∀ c ∈ cps, IsScalar c) :
    openTokens H skFmt nonce primes (sealTokens H skFmt nonce primes cps) cps.length =
      some cps := by
  have hfields : ∀ t ∈ tokensOf H primes skFmt nonce cps, t < 256 ^ 8 := fun t ht =>
    Nat.lt_trans (tokensOf_lt H skFmt nonce h (fun c hc => (hcps c hc).lt) t ht) (by decide)
  have hcount : cps.length * 160 / 8 = (tokensOf H primes skFmt nonce cps).length := by
    rw [length_tokensOf]
    omega
  rw [openTokens, length_sealTokens, hcount, sealTokens, maskWith_maskWith,
    map_beNat_chunksExact 8 _ hfields]
  exact readTokens_tokensOf H skFmt nonce h hcps

end

end Napqes
