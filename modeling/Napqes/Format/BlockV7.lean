import Mathlib.Data.Int.Bitwise
import Napqes.Format.Tokens
import Napqes.Rust.Proofs.BlockV7

/-!
# Readings of a v7 block

The v7 decoders find the real tokens of an authentic ciphertext in the same way and then divide in
different ways. Python takes the floor of `(token - addend) / k`, which may be -1; C subtracts
modulo `2^64` and keeps 32 bits of the quotient. What each of them makes of the two values of the
length prefix follows from that.
-/

namespace Napqes

section
variable (H : Hmac) (key : List Nat) (kb nonce : List UInt8)

/-- What Python recovers from the real token number `idx`. -/
def floorValue (idx token : Nat) : Int :=
  ((token : Int) - realAddend H key kb nonce idx) / keyElem key idx

/-- What C recovers from the real token number `idx`. -/
def wordValue (idx token : Nat) : Nat :=
  (token + 2 ^ 64 - realAddend H key kb nonce idx) % 2 ^ 64 / keyElem key idx % 2 ^ 32

/-- The real tokens of a masked blob. -/
def realTokens (noise : Rust.Noise) (masked : List UInt8) : List Nat :=
  Schedule.free (noise kb nonce) 0
    ((chunksExact 8 (masked.length / 8) (maskWith H kb nonce masked)).map beNat)

/-- The values Python reads. -/
def floorValues (noise : Rust.Noise) (masked : List UInt8) : List Int :=
  (realTokens H kb nonce noise masked).mapIdx (floorValue H key kb nonce)

/-- The values C reads. -/
def wordValues (noise : Rust.Noise) (masked : List UInt8) : List Nat :=
  (realTokens H kb nonce noise masked).mapIdx (wordValue H key kb nonce)

/-- A ciphertext that carries its tag and whole tokens, as many as the keystream reaches. -/
structure AuthenticV7 (aad ciphertext nonce masked : List UInt8) : Prop where
  split : ciphertext = nonce ++ masked ++ (H kb (Rust.authTagInputV7 aad nonce masked)).toList
  length_nonce : nonce.length = 16
  aad_lt : aad.length < 2 ^ 32
  whole : masked.length % 8 = 0
  reach : masked.length ≤ 32 * (2 ^ 32 - 1)

end

/-- A byte string that is long enough for it has a nonce and a tag. -/
theorem exists_nonce_masked_tag {ciphertext : List UInt8} (h : 48 ≤ ciphertext.length) :
    ∃ nonce masked tag, nonce.length = 16 ∧ tag.length = 32 ∧
      ciphertext = nonce ++ masked ++ tag := by
  refine ⟨ciphertext.take 16, (ciphertext.take (ciphertext.length - 32)).drop 16,
    ciphertext.drop (ciphertext.length - 32), ?_, ?_, ?_⟩
  · rw [List.length_take]
    omega
  · rw [List.length_drop]
    omega
  · have hnonce : ciphertext.take 16 = (ciphertext.take (ciphertext.length - 32)).take 16 := by
      rw [List.take_take, Nat.min_eq_left (by omega)]
    rw [hnonce, List.take_append_drop, List.take_append_drop]

/-! ## Lengths -/

/-- How many of `count` values the slice `[2:2+n]` takes behind the first two. -/
def sliceCount (count : Nat) (n : Int) : Nat :=
  if 0 ≤ n then n.toNat else if 0 ≤ 2 + n then 0 else (count + 2 + n).toNat

/-- How many values Python returns: the prefix is two values of at most a byte, it fits, and the
values it takes in are code points. -/
def floorLength : List Int → Option Nat
  | hi :: lo :: rest =>
      let n := Int.lor (hi <<< 8) lo
      if hi ≤ 0xFF ∧ lo ≤ 0xFF ∧ n ≤ rest.length ∧
          ∀ v ∈ rest.take (sliceCount rest.length n), 0 ≤ v ∧ v ≤ 0x10FFFF
      then some (sliceCount rest.length n)
      else none
  | _ => none

/-- How many bytes C writes: the prefix fits. -/
def wordLength : List Nat → Option Nat
  | hi :: lo :: rest =>
      let n := hi <<< 8 ||| lo
      if n ≤ rest.length then some n else none
  | _ => none

/-- Where both readings have a length, the values that Python takes in are non-zero bytes, and C
takes in as many, or comes to a zero byte behind them. -/
def SameReading (values : List Int) (words : List Nat) : Prop :=
  ∀ n m, floorLength values = some n → wordLength words = some m →
    (∀ v ∈ (values.drop 2).take n, 1 ≤ v ∧ v ≤ 0xFF) ∧ n ≤ m ∧
      (n < m → ∀ w, (words.drop 2)[n]? = some w → w % 256 = 0)

theorem floorLength_eq_some_iff {values : List Int} {n : Nat} :
    floorLength values = some n ↔ ∃ hi lo rest, values = hi :: lo :: rest ∧ hi ≤ 0xFF ∧ lo ≤ 0xFF ∧
      Int.lor (hi <<< 8) lo ≤ rest.length ∧ n = sliceCount rest.length (Int.lor (hi <<< 8) lo) ∧
      ∀ v ∈ rest.take n, 0 ≤ v ∧ v ≤ 0x10FFFF := by
  constructor
  · intro h
    match values, h with
    | hi :: lo :: rest, h =>
        simp only [floorLength, Option.ite_none_right_eq_some, Option.some.injEq] at h
        obtain ⟨⟨hhi, hlo, hfits, hcps⟩, rfl⟩ := h
        exact ⟨hi, lo, rest, rfl, hhi, hlo, hfits, rfl, hcps⟩
  · rintro ⟨hi, lo, rest, rfl, hhi, hlo, hfits, rfl, hcps⟩
    exact if_pos ⟨hhi, hlo, hfits, hcps⟩

theorem wordLength_eq_some_iff {words : List Nat} {m : Nat} :
    wordLength words = some m ↔ ∃ hi lo rest, words = hi :: lo :: rest ∧ m = hi <<< 8 ||| lo ∧
      m ≤ rest.length := by
  constructor
  · intro h
    match words, h with
    | hi :: lo :: rest, h =>
        simp only [wordLength, Option.ite_none_right_eq_some, Option.some.injEq] at h
        obtain ⟨hfits, rfl⟩ := h
        exact ⟨hi, lo, rest, rfl, rfl, hfits⟩
  · rintro ⟨hi, lo, rest, rfl, rfl, hfits⟩
    exact if_pos hfits

theorem sliceCount_le {count : Nat} {n : Int} (h : n ≤ count) : sliceCount count n ≤ count := by
  unfold sliceCount
  split
  case isTrue => omega
  case isFalse =>
    split
    case isTrue => omega
    case isFalse => omega

/-! ## Values -/

section
variable {H : Hmac} {key : List Nat} {kb nonce : List UInt8}

/-- A token below its addend reads as a negative value, so the others are divided alike. -/
theorem natCast_wordValue (hkey : KeyValid key) {idx token : Nat} (htoken : token < 2 ^ 64)
    (hnonneg : 0 ≤ floorValue H key kb nonce idx token)
    (hsmall : floorValue H key kb nonce idx token < 2 ^ 32) :
    (wordValue H key kb nonce idx token : Int) = floorValue H key kb nonce idx token := by
  have hrange := keyElem_range hkey idx
  have haddend := realAddend_lt H kb nonce hkey idx
  have hge : realAddend H key kb nonce idx ≤ token := by
    by_contra hlt
    have : floorValue H key kb nonce idx token < 0 :=
      Int.ediv_neg_of_neg_of_pos (by omega) (by omega)
    omega
  have hfloor : floorValue H key kb nonce idx token =
      ((token - realAddend H key kb nonce idx) / keyElem key idx : Nat) := by
    rw [floorValue, Int.natCast_ediv, Int.natCast_sub hge]
  rw [hfloor] at hsmall ⊢
  rw [wordValue, show (token + 2 ^ 64 - realAddend H key kb nonce idx) % 2 ^ 64 =
    token - realAddend H key kb nonce idx by omega, Nat.mod_eq_of_lt (by exact_mod_cast hsmall)]

end

end Napqes
