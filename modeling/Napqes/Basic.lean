import Napqes.Misc.Bytes

/-!
# HMAC, messages and the key condition

The ports share three things this file fixes: HMAC-SHA256 is an arbitrary function from key
and message bytes to 32 bytes, a message is a sequence of Unicode scalar values, and a prime
tuple is usable when it satisfies `KeyValid`. Everything else is per port.
-/

namespace Napqes

/-- HMAC-SHA256 as the ports use it: key bytes and message bytes to a 32-byte digest. -/
abbrev Hmac := List UInt8 → List UInt8 → FixedBytes 32

/-- A byte slice: its length fits a machine word. -/
structure Slice where
  bytes : List UInt8
  length_lt : bytes.length < 2 ^ 64

theorem Slice.ext {a b : Slice} (h : a.bytes = b.bytes) : a = b := by
  cases a
  cases b
  simpa using h

/-- A Rust `&str`: a sequence of Unicode scalar values. -/
abbrev Str := List Char

/-- `str::as_bytes`: the UTF-8 encoding of the string. -/
def Str.asBytes (s : Str) : List UInt8 := s.flatMap String.utf8EncodeChar

/-- `s.chars().map(|c| c as u32)`. -/
def Str.codepoints (s : Str) : List Nat := s.map Char.toNat

/-- Unicode scalar values: code points outside the surrogate range. -/
def IsScalar (c : Nat) : Prop := c ≤ 0x10FFFF ∧ ¬ (0xD800 ≤ c ∧ c ≤ 0xDFFF)

instance (c : Nat) : Decidable (IsScalar c) := inferInstanceAs (Decidable (_ ∧ _))

theorem IsScalar.lt {c : Nat} (h : IsScalar c) : c < 2 ^ 32 :=
  Nat.lt_of_le_of_lt h.1 (by decide)

/-- The test for a value that is not a scalar, as Python and C write it. -/
theorem not_isScalar_iff (c : Nat) :
    ¬ IsScalar c ↔ c > 0x10FFFF ∨ (0xD800 ≤ c ∧ c ≤ 0xDFFF) := by
  unfold IsScalar
  omega

theorem isScalar_iff_isValidChar (c : Nat) : IsScalar c ↔ c.isValidChar := by
  unfold IsScalar Nat.isValidChar
  omega

theorem isScalar_toNat (c : Char) : IsScalar c.toNat :=
  (isScalar_iff_isValidChar _).mpr c.valid

/-- `char::from_u32`. -/
def charFromU32 (c : Nat) : Option Char :=
  if h : c.isValidChar then some (Char.ofNatAux c h) else none

@[simp] theorem charFromU32_toNat (c : Char) : charFromU32 c.toNat = some c := by
  have hvalid : c.toNat.isValidChar := c.valid
  rw [charFromU32, dif_pos hvalid]
  apply congrArg some
  apply Char.ext
  apply UInt32.toNat_inj.mp
  rfl

theorem charFromU32_eq_some {c : Nat} {ch : Char} (h : charFromU32 c = some ch) :
    ch.toNat = c := by
  by_cases hvalid : c.isValidChar
  · rw [charFromU32, dif_pos hvalid] at h
    cases h
    rfl
  · rw [charFromU32, dif_neg hvalid] at h
    cases h

theorem exists_charFromU32 {c : Nat} (h : IsScalar c) : ∃ ch, charFromU32 c = some ch :=
  ⟨_, dif_pos ((isScalar_iff_isValidChar c).mp h)⟩

/-- Every sequence of scalar values is the codepoints of a string. -/
theorem exists_codepoints {cps : List Nat} (h : ∀ c ∈ cps, IsScalar c) :
    ∃ s : Str, s.codepoints = cps := by
  induction cps with
  | nil => exact ⟨[], rfl⟩
  | cons c cps ih =>
      obtain ⟨s, hs⟩ := ih fun d hd => h d (by simp [hd])
      obtain ⟨ch, hch⟩ := exists_charFromU32 (h c (by simp))
      exact ⟨ch :: s, by simp [Str.codepoints, charFromU32_eq_some hch, ← hs]⟩

/-- The key policy all three ports state: between 1 and 128 pairwise distinct primes of the
normative interval. -/
structure KeyValid (primes : List Nat) : Prop where
  nonempty : primes ≠ []
  length_le : primes.length ≤ 128
  range : ∀ k ∈ primes, 1000000 ≤ k ∧ k ≤ 14999999
  prime : ∀ k ∈ primes, k.Prime
  nodup : primes.Nodup

/-- A constant function in the place of HMAC, for concrete instances. -/
def zeroHmac : Hmac := fun _ _ => .ofList 32 []

/-- A tuple of one prime, for concrete instances. -/
theorem keyValid_1000003 : KeyValid [1000003] where
  nonempty := by simp
  length_le := by simp
  range := by simp
  prime := by norm_num
  nodup := by simp

end Napqes
