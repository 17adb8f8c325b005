import Napqes.C.Base64
import Napqes.Misc.Base64

/-!
# Base64 of the C port

The decoder looks at each group of four characters alone. It therefore reads `=` in any group, and
does not look at the bits that the characters before a `=` carry beyond the last byte.
-/

namespace Napqes.C

/-! ## The alphabet -/

theorem b64Val_alphaAt_of_lt : ∀ v < 64, b64Val (alphaAt v) = some v := by decide +kernel

theorem b64Val_all : ∀ n < 256, (b64Val (UInt8.ofNat n)).all
    (fun v => v < 64 ∧ alphaAt v = UInt8.ofNat n) = true := by decide +kernel

/-- `b64_val` inverts `ALPHA`. -/
theorem b64Val_eq_some_iff {c : UInt8} {v : Nat} :
    b64Val c = some v ↔ v < 64 ∧ alphaAt v = c := by
  constructor
  · intro h
    have hall := b64Val_all c.toNat c.toNat_lt
    rw [UInt8.ofNat_toNat, h] at hall
    simpa using hall
  · rintro ⟨hlt, rfl⟩
    exact b64Val_alphaAt_of_lt v hlt

theorem b64Val_pad : b64Val 0x3D = none := by decide

theorem alphaAt_ne_pad {v : Nat} (h : v < 64) : alphaAt v ≠ 0x3D := by
  intro hpad
  have hval := b64Val_alphaAt_of_lt v h
  rw [hpad, b64Val_pad] at hval
  cases hval

theorem alphaAt_mod (v : Nat) : alphaAt v = alphaAt (v % 64) := by
  rw [alphaAt, alphaAt, show (0x3F : Nat) = 2 ^ 6 - 1 from rfl, Nat.and_two_pow_sub_one_eq_mod,
    Nat.and_two_pow_sub_one_eq_mod, Nat.mod_mod]

/-! ## One group -/

/-- The bytes of one group of four characters. -/
def groupBytes (c0 c1 c2 c3 : UInt8) : Option (List UInt8) := do
  let v0 ← b64Val c0
  let v1 ← b64Val c1
  if c2 = 0x3D then
    if c3 = 0x3D then some [UInt8.ofNat (v0 * 4 + v1 / 16)] else none
  else
    let v2 ← b64Val c2
    if c3 = 0x3D then
      some [UInt8.ofNat (v0 * 4 + v1 / 16), UInt8.ofNat (v1 % 16 * 16 + v2 / 4)]
    else
      let v3 ← b64Val c3
      some [UInt8.ofNat (v0 * 4 + v1 / 16), UInt8.ofNat (v1 % 16 * 16 + v2 / 4),
        UInt8.ofNat (v2 % 4 * 64 + v3)]

theorem triple_eq {v0 v1 v2 v3 : Nat} (h1 : v1 < 64) (h2 : v2 < 64) (h3 : v3 < 64) :
    v0 <<< 18 ||| v1 <<< 12 ||| v2 <<< 6 ||| v3 = v0 * 2 ^ 18 + v1 * 2 ^ 12 + v2 * 2 ^ 6 + v3 := by
  have hlow : v3 < 2 ^ 6 := h3
  have hmid : v2 * 2 ^ 6 + v3 < 2 ^ 12 := by omega
  have hhigh : v1 * 2 ^ 12 + (v2 * 2 ^ 6 + v3) < 2 ^ 18 := by omega
  rw [Nat.or_assoc, Nat.or_assoc, shiftLeft_or_eq hlow, shiftLeft_or_eq hmid,
    shiftLeft_or_eq hhigh]
  omega

theorem ofNat_eq_ofNat {m n : Nat} (h : m % 256 = n % 256) : UInt8.ofNat m = UInt8.ofNat n := by
  apply UInt8.toNat_inj.mp
  simpa using h

section
variable {v0 v1 v2 v3 : Nat} (h1 : v1 < 64) (h2 : v2 < 64) (h3 : v3 < 64)
include h1 h2 h3

theorem lowByte_triple_high : lowByte ((v0 <<< 18 ||| v1 <<< 12 ||| v2 <<< 6 ||| v3) >>> 16) =
    UInt8.ofNat (v0 * 4 + v1 / 16) := by
  rw [lowByte_eq, triple_eq h1 h2 h3, Nat.shiftRight_eq_div_pow]
  exact ofNat_eq_ofNat (by omega)

theorem lowByte_triple_mid : lowByte ((v0 <<< 18 ||| v1 <<< 12 ||| v2 <<< 6 ||| v3) >>> 8) =
    UInt8.ofNat (v1 % 16 * 16 + v2 / 4) := by
  rw [lowByte_eq, triple_eq h1 h2 h3, Nat.shiftRight_eq_div_pow]
  exact ofNat_eq_ofNat (by omega)

theorem lowByte_triple_low : lowByte (v0 <<< 18 ||| v1 <<< 12 ||| v2 <<< 6 ||| v3) =
    UInt8.ofNat (v2 % 4 * 64 + v3) := by
  rw [lowByte_eq, triple_eq h1 h2 h3]
  exact ofNat_eq_ofNat (by omega)

end

theorem b64Val_lt {c : UInt8} {v : Nat} (h : b64Val c = some v) : v < 64 :=
  (b64Val_eq_some_iff.mp h).1

/-- One round of the decoding loop. -/
theorem base64DecodeLoop_eq_groupBytes (c0 c1 c2 c3 : UInt8) (rest out : List UInt8) :
    base64DecodeLoop (c0 :: c1 :: c2 :: c3 :: rest) out =
      groupBytes c0 c1 c2 c3 >>= fun bs => base64DecodeLoop rest (out ++ bs) := by
  have hzero : (0 : Nat) < 64 := by decide
  rw [base64DecodeLoop, groupBytes]
  cases hv0 : b64Val c0 with
  | none => rfl
  | some v0 =>
  cases hv1 : b64Val c1 with
  | none => rfl
  | some v1 =>
  have h1 := b64Val_lt hv1
  by_cases hpad2 : c2 = 0x3D
  · by_cases hpad3 : c3 = 0x3D
    · simp only [hpad2, hpad3, beq_self_eq_true, if_true, Option.bind_eq_bind, Option.bind_some,
        lowByte_triple_high h1 hzero hzero]
      rfl
    · cases b64Val c3 with
      | none => simp [hpad2, hpad3]
      | some v3 => simp [hpad2, hpad3]
  · have hne2 : (c2 == 0x3D) = false := beq_eq_false_iff_ne.mpr hpad2
    cases hv2 : b64Val c2 with
    | none => simp [hpad2]
    | some v2 =>
    have h2 := b64Val_lt hv2
    by_cases hpad3 : c3 = 0x3D
    · simp only [hne2, hpad2, hpad3, beq_self_eq_true, if_true, Bool.false_eq_true, if_false,
        Option.bind_eq_bind, Option.bind_some, lowByte_triple_high h1 h2 hzero,
        lowByte_triple_mid h1 h2 hzero]
      simp
    · have hne3 : (c3 == 0x3D) = false := beq_eq_false_iff_ne.mpr hpad3
      cases hv3 : b64Val c3 with
      | none => simp [hpad2, hpad3]
      | some v3 =>
          have h3 := b64Val_lt hv3
          simp only [hne2, hne3, hpad2, hpad3, Bool.false_eq_true, if_false,
            Option.bind_eq_bind, Option.bind_some, lowByte_triple_high h1 h2 h3,
            lowByte_triple_mid h1 h2 h3, lowByte_triple_low h1 h2 h3]
          simp

/-- The three kinds of a group that is read. -/
theorem groupBytes_eq_some_iff {c0 c1 c2 c3 : UInt8} {bs : List UInt8} :
    groupBytes c0 c1 c2 c3 = some bs ↔
      ∃ v0 < 64, ∃ v1 < 64, alphaAt v0 = c0 ∧ alphaAt v1 = c1 ∧
        ((c2 = 0x3D ∧ c3 = 0x3D ∧ bs = [UInt8.ofNat (v0 * 4 + v1 / 16)]) ∨
        ∃ v2 < 64, alphaAt v2 = c2 ∧
          ((c3 = 0x3D ∧
            bs = [UInt8.ofNat (v0 * 4 + v1 / 16), UInt8.ofNat (v1 % 16 * 16 + v2 / 4)]) ∨
          ∃ v3 < 64, alphaAt v3 = c3 ∧
            bs = [UInt8.ofNat (v0 * 4 + v1 / 16), UInt8.ofNat (v1 % 16 * 16 + v2 / 4),
              UInt8.ofNat (v2 % 4 * 64 + v3)])) := by
  constructor
  · intro h
    rw [groupBytes] at h
    obtain ⟨v0, hv0, h⟩ := Option.bind_eq_some_iff.mp h
    obtain ⟨v1, hv1, h⟩ := Option.bind_eq_some_iff.mp h
    obtain ⟨hlt0, heq0⟩ := b64Val_eq_some_iff.mp hv0
    obtain ⟨hlt1, heq1⟩ := b64Val_eq_some_iff.mp hv1
    refine ⟨v0, hlt0, v1, hlt1, heq0, heq1, ?_⟩
    split at h
    case isTrue hpad2 =>
      split at h
      case isTrue hpad3 => exact .inl ⟨hpad2, hpad3, (Option.some.inj h).symm⟩
      case isFalse => cases h
    case isFalse hpad2 =>
      obtain ⟨v2, hv2, h⟩ := Option.bind_eq_some_iff.mp h
      obtain ⟨hlt2, heq2⟩ := b64Val_eq_some_iff.mp hv2
      refine .inr ⟨v2, hlt2, heq2, ?_⟩
      split at h
      case isTrue hpad3 => exact .inl ⟨hpad3, (Option.some.inj h).symm⟩
      case isFalse =>
        obtain ⟨v3, hv3, h⟩ := Option.bind_eq_some_iff.mp h
        obtain ⟨hlt3, heq3⟩ := b64Val_eq_some_iff.mp hv3
        exact .inr ⟨v3, hlt3, heq3, (Option.some.inj h).symm⟩
  · rintro ⟨v0, hlt0, v1, hlt1, rfl, rfl, h⟩
    rw [groupBytes, b64Val_alphaAt_of_lt v0 hlt0, b64Val_alphaAt_of_lt v1 hlt1]
    rcases h with ⟨rfl, rfl, rfl⟩ | ⟨v2, hlt2, rfl, ⟨rfl, rfl⟩ | ⟨v3, hlt3, rfl, rfl⟩⟩
    · rfl
    · simp [alphaAt_ne_pad hlt2, b64Val_alphaAt_of_lt v2 hlt2]
    · simp [alphaAt_ne_pad hlt2, alphaAt_ne_pad hlt3, b64Val_alphaAt_of_lt v2 hlt2,
        b64Val_alphaAt_of_lt v3 hlt3]

/-! ## Group after group -/

/-- The bytes of a string, without the buffer. -/
def decodeGroups : List UInt8 → Option (List UInt8)
  | c0 :: c1 :: c2 :: c3 :: rest => do
      let bs ← groupBytes c0 c1 c2 c3
      let x ← decodeGroups rest
      return bs ++ x
  | _ => some []

theorem base64DecodeLoop_eq (s out : List UInt8) :
    base64DecodeLoop s out = (decodeGroups s).map (out ++ ·) := by
  induction s using decodeGroups.induct generalizing out with
  | case1 c0 c1 c2 c3 rest ih =>
      rw [base64DecodeLoop_eq_groupBytes, decodeGroups]
      cases groupBytes c0 c1 c2 c3 with
      | none => rfl
      | some bs =>
          simp only [Option.bind_eq_bind, Option.bind_some]
          rw [ih]
          cases decodeGroups rest with
          | none => rfl
          | some x => simp
  | case2 s hshort =>
      rw [base64DecodeLoop.eq_2 _ _ hshort, decodeGroups.eq_2 _ hshort]
      simp

theorem base64Decode_eq (s : List UInt8) :
    base64Decode s = if s.length % 4 ≠ 0 then none else decodeGroups s := by
  rw [base64Decode, base64DecodeLoop_eq]
  simp

theorem alphaAt_eq {m n : Nat} (h : m % 64 = n % 64) : alphaAt m = alphaAt n := by
  rw [alphaAt_mod m, alphaAt_mod n, h]

theorem word_eq {a b c : Nat} (hb : b < 256) (hc : c < 256) :
    a <<< 16 ||| b <<< 8 ||| c = a * 2 ^ 16 + b * 2 ^ 8 + c := by
  have hlow : c < 2 ^ 8 := hc
  have hhigh : b * 2 ^ 8 + c < 2 ^ 16 := by omega
  rw [Nat.or_assoc, shiftLeft_or_eq hlow, shiftLeft_or_eq hhigh]
  omega

section
variable (a : Nat) {b c : Nat} (hb : b < 256) (hc : c < 256)
include hb hc

theorem alphaAt_word_first :
    alphaAt ((a <<< 16 ||| b <<< 8 ||| c) >>> 18) = alphaAt (a / 4) := by
  rw [word_eq hb hc, Nat.shiftRight_eq_div_pow]
  exact alphaAt_eq (by omega)

theorem alphaAt_word_second :
    alphaAt ((a <<< 16 ||| b <<< 8 ||| c) >>> 12) = alphaAt (a % 4 * 16 + b / 16) := by
  rw [word_eq hb hc, Nat.shiftRight_eq_div_pow]
  exact alphaAt_eq (by omega)

theorem alphaAt_word_third :
    alphaAt ((a <<< 16 ||| b <<< 8 ||| c) >>> 6) = alphaAt (b % 16 * 4 + c / 64) := by
  rw [word_eq hb hc, Nat.shiftRight_eq_div_pow]
  exact alphaAt_eq (by omega)

theorem alphaAt_word_fourth : alphaAt (a <<< 16 ||| b <<< 8 ||| c) = alphaAt (c % 64) := by
  rw [word_eq hb hc]
  exact alphaAt_eq (by omega)

end

theorem base64EncodeLoop_eq (x out : List UInt8) :
    base64EncodeLoop x out = out ++ Base64.encode alphaAt 0x3D x := by
  have hzero : (0 : Nat) < 256 := by decide
  induction x, out using base64EncodeLoop.induct with
  | case1 a b c rest out v ih =>
      rw [base64EncodeLoop, ih, Base64.encode, List.append_assoc]
      rw [alphaAt_word_first a.toNat b.toNat_lt c.toNat_lt,
        alphaAt_word_second a.toNat b.toNat_lt c.toNat_lt,
        alphaAt_word_third a.toNat b.toNat_lt c.toNat_lt,
        alphaAt_word_fourth a.toNat b.toNat_lt c.toNat_lt]
      rfl
  | case2 a out =>
      have hfirst := alphaAt_word_first a.toNat hzero hzero
      have hsecond := alphaAt_word_second a.toNat hzero hzero
      simp only [Nat.zero_shiftLeft, Nat.or_zero, Nat.zero_div, Nat.add_zero] at hfirst hsecond
      rw [base64EncodeLoop, Base64.encode, hfirst, hsecond]
  | case3 a b out =>
      have hfirst := alphaAt_word_first a.toNat b.toNat_lt hzero
      have hsecond := alphaAt_word_second a.toNat b.toNat_lt hzero
      have hthird := alphaAt_word_third a.toNat b.toNat_lt hzero
      simp only [Nat.or_zero, Nat.zero_div, Nat.add_zero] at hfirst hsecond hthird
      rw [base64EncodeLoop, Base64.encode, hfirst, hsecond, hthird]
  | case4 out => exact (List.append_nil out).symm

theorem base64Encode_eq (x : List UInt8) : base64Encode x = Base64.encode alphaAt 0x3D x :=
  base64EncodeLoop_eq x []

/-- The encoder fills the buffer its callers allocate. -/
theorem length_base64Encode (x : List UInt8) :
    (base64Encode x).length = base64EncodedLen x.length := by
  rw [base64Encode_eq, Base64.length_encode, base64EncodedLen]

/-! ## What is encoded is decoded again -/

theorem ofNat_eq_of_eq_toNat {n : Nat} {a : UInt8} (h : n = a.toNat) : UInt8.ofNat n = a := by
  rw [h, UInt8.ofNat_toNat]

theorem groupBytes_three (a b c : UInt8) :
    groupBytes (alphaAt (a.toNat / 4)) (alphaAt (a.toNat % 4 * 16 + b.toNat / 16))
      (alphaAt (b.toNat % 16 * 4 + c.toNat / 64)) (alphaAt (c.toNat % 64)) = some [a, b, c] := by
  have ha := a.toNat_lt
  have hb := b.toNat_lt
  have hc := c.toNat_lt
  rw [groupBytes_eq_some_iff]
  refine ⟨_, by omega, _, by omega, rfl, rfl, .inr ⟨_, by omega, rfl, .inr ⟨_, by omega, rfl, ?_⟩⟩⟩
  rw [ofNat_eq_of_eq_toNat (a := a) (by omega), ofNat_eq_of_eq_toNat (a := b) (by omega),
    ofNat_eq_of_eq_toNat (a := c) (by omega)]

theorem groupBytes_two (a b : UInt8) :
    groupBytes (alphaAt (a.toNat / 4)) (alphaAt (a.toNat % 4 * 16 + b.toNat / 16))
      (alphaAt (b.toNat % 16 * 4)) 0x3D = some [a, b] := by
  have ha := a.toNat_lt
  have hb := b.toNat_lt
  rw [groupBytes_eq_some_iff]
  refine ⟨_, by omega, _, by omega, rfl, rfl, .inr ⟨_, by omega, rfl, .inl ⟨rfl, ?_⟩⟩⟩
  rw [ofNat_eq_of_eq_toNat (a := a) (by omega), ofNat_eq_of_eq_toNat (a := b) (by omega)]

theorem groupBytes_one (a : UInt8) :
    groupBytes (alphaAt (a.toNat / 4)) (alphaAt (a.toNat % 4 * 16)) 0x3D 0x3D = some [a] := by
  have ha := a.toNat_lt
  rw [groupBytes_eq_some_iff]
  refine ⟨_, by omega, _, by omega, rfl, rfl, .inl ⟨rfl, rfl, ?_⟩⟩
  rw [ofNat_eq_of_eq_toNat (a := a) (by omega)]

theorem decodeGroups_encode (x : List UInt8) :
    decodeGroups (Base64.encode alphaAt 0x3D x) = some x := by
  induction x using Base64.encode.induct with
  | case1 a b c rest ih =>
      rw [Base64.encode, decodeGroups, groupBytes_three, ih]
      rfl
  | case2 a =>
      rw [Base64.encode, decodeGroups, groupBytes_one]
      rfl
  | case3 a b =>
      rw [Base64.encode, decodeGroups, groupBytes_two]
      rfl
  | case4 => rfl

theorem base64Decode_base64Encode (x : List UInt8) : base64Decode (base64Encode x) = some x := by
  have hlen : (base64Encode x).length % 4 = 0 := by
    rw [length_base64Encode, base64EncodedLen, Nat.mul_mod_left]
  rw [base64Decode_eq, if_neg (by omega), base64Encode_eq, decodeGroups_encode]

/-! ## The strings that are read -/

/-- The bits that the character before a `=` carries beyond the last byte of its group are zero. -/
def unusedBitsZero (c1 c2 c3 : UInt8) : Bool :=
  if c2 = 0x3D then (b64Val c1).all (· % 16 = 0)
  else if c3 = 0x3D then (b64Val c2).all (· % 4 = 0)
  else true

/-- Characters of the alphabet, where `=` may stand for the last or the last two. -/
def GroupReadable (c0 c1 c2 c3 : UInt8) : Prop :=
  (b64Val c0).isSome ∧ (b64Val c1).isSome ∧
    (c2 = 0x3D ∧ c3 = 0x3D ∨ (b64Val c2).isSome ∧ (c3 = 0x3D ∨ (b64Val c3).isSome))

/-- A string of such groups. -/
def Base64Readable : List UInt8 → Prop
  | [] => True
  | c0 :: c1 :: c2 :: c3 :: rest => GroupReadable c0 c1 c2 c3 ∧ Base64Readable rest
  | _ => False

/-- `=` stands in the last group only, and the unused bits there are zero. -/
def Base64Canonical : List UInt8 → Prop
  | [_, c1, c2, c3] => unusedBitsZero c1 c2 c3
  | _ :: _ :: c2 :: c3 :: rest => c2 ≠ 0x3D ∧ c3 ≠ 0x3D ∧ Base64Canonical rest
  | _ => True

theorem isSome_groupBytes_iff {c0 c1 c2 c3 : UInt8} :
    (groupBytes c0 c1 c2 c3).isSome ↔ GroupReadable c0 c1 c2 c3 := by
  rw [groupBytes, GroupReadable]
  cases b64Val c0 with
  | none => simp
  | some v0 =>
  cases b64Val c1 with
  | none => simp
  | some v1 =>
  by_cases hpad2 : c2 = 0x3D
  · by_cases hpad3 : c3 = 0x3D
    · simp [hpad2, hpad3]
    · simp [hpad2, hpad3, b64Val_pad]
  · cases b64Val c2 with
    | none => simp [hpad2]
    | some v2 =>
        by_cases hpad3 : c3 = 0x3D
        · simp [hpad2, hpad3]
        · cases b64Val c3 with
          | none => simp [hpad2, hpad3]
          | some v3 => simp [hpad2, hpad3]

theorem base64Decode_nil : base64Decode [] = some [] := rfl

theorem base64Decode_group (c0 c1 c2 c3 : UInt8) (rest : List UInt8) :
    base64Decode (c0 :: c1 :: c2 :: c3 :: rest) =
      groupBytes c0 c1 c2 c3 >>= fun bs => (base64Decode rest).map (bs ++ ·) := by
  rw [base64Decode_eq, base64Decode_eq, decodeGroups]
  have hlen : (c0 :: c1 :: c2 :: c3 :: rest).length % 4 = rest.length % 4 := by
    simp only [List.length_cons]
    omega
  rw [hlen]
  cases groupBytes c0 c1 c2 c3 with
  | none => simp
  | some bs =>
      by_cases hrest : rest.length % 4 ≠ 0
      · simp [hrest]
      · rw [if_neg hrest, if_neg hrest]
        cases decodeGroups rest with
        | none => rfl
        | some x => rfl

theorem base64Decode_short {s : List UInt8} (hnil : s ≠ [])
    (hshort : ∀ c0 c1 c2 c3 rest, s = c0 :: c1 :: c2 :: c3 :: rest → False) :
    base64Decode s = none := by
  obtain _ | ⟨c0, _ | ⟨c1, _ | ⟨c2, _ | ⟨c3, rest⟩⟩⟩⟩ := s
  · exact absurd rfl hnil
  · rfl
  · rfl
  · rfl
  · exact (hshort c0 c1 c2 c3 rest rfl).elim

theorem isSome_base64Decode_iff (s : List UInt8) : (base64Decode s).isSome ↔ Base64Readable s := by
  induction s using Base64Readable.induct with
  | case1 => simp [base64Decode_nil, Base64Readable]
  | case2 c0 c1 c2 c3 rest ih =>
      rw [Base64Readable, ← ih, ← isSome_groupBytes_iff, base64Decode_group]
      cases groupBytes c0 c1 c2 c3 with
      | none => simp
      | some bs => simp
  | case3 s hnil hshort =>
      rw [base64Decode_short hnil hshort, Base64Readable.eq_3 _ hnil hshort]
      simp

/-! ## One string for each byte string -/

theorem unusedBitsZero_of_ne {c1 c2 c3 : UInt8} (h2 : c2 ≠ 0x3D) (h3 : c3 ≠ 0x3D) :
    unusedBitsZero c1 c2 c3 = true := by
  rw [unusedBitsZero, if_neg h2, if_neg h3]

theorem Base64Canonical.group {c2 c3 : UInt8} {rest : List UInt8} (h2 : c2 ≠ 0x3D)
    (h3 : c3 ≠ 0x3D) (hrest : Base64Canonical rest) (c0 c1 : UInt8) :
    Base64Canonical (c0 :: c1 :: c2 :: c3 :: rest) := by
  cases rest with
  | nil => exact unusedBitsZero_of_ne h2 h3
  | cons c rest => exact ⟨h2, h3, hrest⟩

theorem base64Canonical_encode (x : List UInt8) :
    Base64Canonical (Base64.encode alphaAt 0x3D x) := by
  induction x using Base64.encode.induct with
  | case1 a b c rest ih =>
      have hb := b.toNat_lt
      have hc := c.toNat_lt
      rw [Base64.encode]
      exact Base64Canonical.group (alphaAt_ne_pad (by omega)) (alphaAt_ne_pad (by omega)) ih _ _
  | case2 a =>
      have hval := b64Val_alphaAt_of_lt (a.toNat % 4 * 16) (by omega)
      rw [Base64.encode, Base64Canonical, unusedBitsZero, if_pos rfl, hval]
      simp
  | case3 a b =>
      have hb := b.toNat_lt
      have hval := b64Val_alphaAt_of_lt (b.toNat % 16 * 4) (by omega)
      rw [Base64.encode, Base64Canonical, unusedBitsZero, if_neg (alphaAt_ne_pad (by omega)),
        if_pos rfl, hval]
      simp
  | case4 => trivial

theorem toNat_ofNat_of_lt {n : Nat} (h : n < 256) : (UInt8.ofNat n).toNat = n := by
  rw [UInt8.toNat_ofNat', Nat.mod_eq_of_lt h]

/-- A full group is the encoding of its bytes. -/
theorem encode_of_full {c0 c1 c2 c3 : UInt8} {bs : List UInt8}
    (h : groupBytes c0 c1 c2 c3 = some bs) (h2 : c2 ≠ 0x3D) (h3 : c3 ≠ 0x3D) (x : List UInt8) :
    Base64.encode alphaAt 0x3D (bs ++ x) =
      c0 :: c1 :: c2 :: c3 :: Base64.encode alphaAt 0x3D x := by
  obtain ⟨v0, hlt0, v1, hlt1, rfl, rfl, ⟨hpad2, -⟩ | ⟨v2, hlt2, rfl, hlast⟩⟩ :=
    groupBytes_eq_some_iff.mp h
  · exact absurd hpad2 h2
  obtain ⟨hpad3, -⟩ | ⟨v3, hlt3, rfl, rfl⟩ := hlast
  · exact absurd hpad3 h3
  simp only [List.cons_append, List.nil_append, Base64.encode]
  rw [toNat_ofNat_of_lt (by omega), toNat_ofNat_of_lt (by omega), toNat_ofNat_of_lt (by omega)]
  congr
  · omega
  · omega
  · omega
  · omega

/-- The last group is the encoding of its bytes when its unused bits are zero. -/
theorem encode_of_last {c0 c1 c2 c3 : UInt8} {bs : List UInt8}
    (h : groupBytes c0 c1 c2 c3 = some bs) (hbits : unusedBitsZero c1 c2 c3 = true) :
    Base64.encode alphaAt 0x3D bs = [c0, c1, c2, c3] := by
  obtain ⟨v0, hlt0, v1, hlt1, rfl, rfl, ⟨rfl, rfl, rfl⟩ | ⟨v2, hlt2, rfl, hlast⟩⟩ :=
    groupBytes_eq_some_iff.mp h
  · rw [unusedBitsZero, if_pos rfl, b64Val_alphaAt_of_lt v1 hlt1] at hbits
    have hzero : v1 % 16 = 0 := by simpa using hbits
    rw [Base64.encode, toNat_ofNat_of_lt (by omega)]
    congr
    · omega
    · omega
  · obtain ⟨rfl, rfl⟩ | ⟨v3, hlt3, rfl, rfl⟩ := hlast
    · rw [unusedBitsZero, if_neg (alphaAt_ne_pad hlt2), if_pos rfl,
        b64Val_alphaAt_of_lt v2 hlt2] at hbits
      have hzero : v2 % 4 = 0 := by simpa using hbits
      rw [Base64.encode, toNat_ofNat_of_lt (by omega), toNat_ofNat_of_lt (by omega)]
      congr
      · omega
      · omega
      · omega
    · exact encode_of_full h (alphaAt_ne_pad hlt2) (alphaAt_ne_pad hlt3) []

theorem eq_encode_of_canonical {s x : List UInt8} (h : base64Decode s = some x)
    (hcanon : Base64Canonical s) : s = Base64.encode alphaAt 0x3D x := by
  induction s using Base64Readable.induct generalizing x with
  | case1 =>
      obtain rfl := Option.some.inj h
      rfl
  | case2 c0 c1 c2 c3 rest ih =>
      rw [base64Decode_group] at h
      obtain ⟨bs, hgroup, h⟩ := Option.bind_eq_some_iff.mp h
      obtain ⟨x', hrest, rfl⟩ := Option.map_eq_some_iff.mp h
      cases rest with
      | nil =>
          obtain rfl := Option.some.inj hrest
          rw [List.append_nil, encode_of_last hgroup hcanon]
      | cons c rest =>
          obtain ⟨h2, h3, hcanon⟩ := hcanon
          rw [encode_of_full hgroup h2 h3, ← ih hrest hcanon]
  | case3 s hnil hshort =>
      rw [base64Decode_short hnil hshort] at h
      cases h

/-! ## What is written -/

/-- A group adds one to three bytes. -/
theorem length_group_le (out : List UInt8) (x y z : UInt8) (pad2 pad3 : Bool) :
    (if (!pad3) = true then (if (!pad2) = true then out ++ [x] ++ [y] else out ++ [x]) ++ [z]
      else if (!pad2) = true then out ++ [x] ++ [y] else out ++ [x]).length ≤ out.length + 3 := by
  cases pad2 <;> cases pad3 <;> simp

theorem base64DecodeFill_length_le (s out : List UInt8) :
    (base64DecodeFill s out).1.length ≤ out.length + base64DecodedMaxLen s.length := by
  induction s using Base64Readable.induct generalizing out with
  | case1 => exact Nat.le_add_right _ _
  | case2 c0 c1 c2 c3 rest ih =>
      have hlen : base64DecodedMaxLen (c0 :: c1 :: c2 :: c3 :: rest).length =
          base64DecodedMaxLen rest.length + 3 := by
        simp only [base64DecodedMaxLen, List.length_cons]
        omega
      rw [base64DecodeFill, hlen]
      split
      case h_1 v0 v1 v2 v3 _ _ _ _ =>
        simp only
        have hgroup := length_group_le out
          (lowByte ((v0 <<< 18 ||| v1 <<< 12 ||| v2 <<< 6 ||| v3) >>> 16))
          (lowByte ((v0 <<< 18 ||| v1 <<< 12 ||| v2 <<< 6 ||| v3) >>> 8))
          (lowByte (v0 <<< 18 ||| v1 <<< 12 ||| v2 <<< 6 ||| v3)) (c2 == 0x3D) (c3 == 0x3D)
        split
        case isTrue => exact Nat.le_trans hgroup (by omega)
        case isFalse => exact Nat.le_trans (ih _) (by omega)
      case h_2 => exact Nat.le_add_right _ _
  | case3 s hnil hshort =>
      rw [base64DecodeFill.eq_2 _ _ hshort]
      exact Nat.le_add_right _ _

/-- `base64_decode` writes what it returns. -/
theorem base64DecodeLoop_eq_fill (s out : List UInt8) :
    base64DecodeLoop s out =
      if (base64DecodeFill s out).2 then some (base64DecodeFill s out).1 else none := by
  induction s using Base64Readable.induct generalizing out with
  | case1 => rfl
  | case2 c0 c1 c2 c3 rest ih =>
      rw [base64DecodeFill, base64DecodeLoop]
      dsimp only
      cases b64Val c0 with
      | none => rfl
      | some v0 =>
      cases b64Val c1 with
      | none => rfl
      | some v1 =>
      cases (if (c2 == 0x3D) = true then some 0 else b64Val c2) with
      | none => rfl
      | some v2 =>
      cases (if (c3 == 0x3D) = true then some 0 else b64Val c3) with
      | none => rfl
      | some v3 =>
      simp only [Option.bind_eq_bind, Option.bind_some]
      split
      case isTrue => rfl
      case isFalse => exact ih _
  | case3 s hnil hshort =>
      rw [base64DecodeFill.eq_2 _ _ hshort, base64DecodeLoop.eq_2 _ _ hshort]
      rfl

theorem base64DecodeWritten_of_some {s x : List UInt8} (h : base64Decode s = some x) :
    base64DecodeWritten s = x := by
  rw [base64Decode] at h
  split at h
  case isTrue => cases h
  case isFalse hlen =>
    rw [base64DecodeLoop_eq_fill] at h
    rw [base64DecodeWritten, if_neg hlen]
    split at h
    case isTrue => exact Option.some.inj h
    case isFalse => cases h

theorem base64DecodeWritten_length_le (s : List UInt8) :
    (base64DecodeWritten s).length ≤ base64DecodedMaxLen s.length := by
  rw [base64DecodeWritten]
  split
  case isTrue => exact Nat.zero_le _
  case isFalse => exact Nat.le_trans (base64DecodeFill_length_le s []) (by simp)

/-! ## The accepted strings -/

/-- Encoded bytes come back, the buffer is never overrun, and a string that the decoder reads is
the encoding of its bytes exactly when its `=` stand in the last group and its unused bits are
zero. -/
theorem base64_one_form_iff (s : List UInt8) :
    (∀ x, base64Decode (base64Encode x) = some x) ∧
    (base64DecodeWritten s).length ≤ base64DecodedMaxLen s.length ∧
    ((∀ x, base64Decode s = some x → base64DecodeWritten s = x ∧ s = base64Encode x) ↔
      (Base64Readable s → Base64Canonical s)) := by
  refine ⟨base64Decode_base64Encode, base64DecodeWritten_length_le s, ?_⟩
  constructor
  · intro hone hreadable
    obtain ⟨x, hx⟩ := Option.isSome_iff_exists.mp ((isSome_base64Decode_iff s).mpr hreadable)
    rw [(hone x hx).2, base64Encode_eq]
    exact base64Canonical_encode x
  · intro hcanon x hx
    have hreadable := (isSome_base64Decode_iff s).mp (Option.isSome_of_mem hx)
    refine ⟨base64DecodeWritten_of_some hx, ?_⟩
    rw [base64Encode_eq]
    exact eq_encode_of_canonical hx (hcanon hreadable)

theorem base64_one_form_iff_padded :
    base64Decode [0x51, 0x51, 0x3D, 0x3D] = some [0x41] ∧
      [0x51, 0x51, 0x3D, 0x3D] = base64Encode [0x41] := by
  have hread : base64Decode [0x51, 0x51, 0x3D, 0x3D] = some [0x41] := by decide
  have hone := (base64_one_form_iff [0x51, 0x51, 0x3D, 0x3D]).2.2.mpr fun _ => rfl
  exact ⟨hread, (hone [0x41] hread).2⟩

/-- `QR==` is read as the byte whose encoding is `QQ==`. -/
theorem base64_two_forms :
    ¬ ∀ s x, base64Decode s = some x → s = base64Encode x := by
  intro h
  have hread : base64Decode [0x51, 0x52, 0x3D, 0x3D] = some [0x41] := by decide
  have hform : [0x51, 0x52, 0x3D, 0x3D] = base64Encode [0x41] := h _ _ hread
  exact absurd hform (by decide)

end Napqes.C
