import Napqes.Python.Stream
import Napqes.Python.Proofs.Block
import Napqes.Python.Proofs.BlockV7
import Napqes.Rust.Proofs.BlockV7

/-!
# Tokens and keystream of the v7 streams

What both v7 streams have in common: the LEB128 tokens of the characters are a placement in the
uncapped schedule of `Napqes.Schedule`, the decoding loop reads a placement back whichever way its
bytes are cut, and the keystream runs on across calls: what a call masks depends on its offset
alone.
-/

namespace Napqes.Python

variable {H : Hmac} {noise : Noise} {key : List Nat} {kb nonce : List UInt8}

/-! ## Keys -/

theorem nodup_of_checkKeyElements {mathSqrt : Nat → Nat} {seen : List Nat}
    {entries : List (Nat × Nat)} (h : checkKeyElements mathSqrt seen entries = .ok ⟨⟩) :
    (entries.map Prod.fst).Nodup ∧ ∀ k ∈ entries.map Prod.fst, k ∉ seen := by
  induction entries generalizing seen with
  | nil => simp
  | cons entry entries ih =>
      obtain ⟨k, i⟩ := entry
      rw [checkKeyElements] at h
      split at h
      case isTrue => cases h
      case isFalse =>
        split at h
        case isTrue => cases h
        case isFalse hnew =>
          obtain ⟨hnodup, hseen⟩ := ih h
          rw [List.map_cons, List.nodup_cons]
          refine ⟨⟨fun hk => hseen k hk List.mem_cons_self, hnodup⟩, ?_⟩
          intro k' hk'
          rcases List.mem_cons.mp hk' with rfl | hk'
          · exact hnew
          · exact fun hmem => hseen k' hk' (List.mem_cons_of_mem k hmem)

theorem isPrime_of_checkKeyElements {mathSqrt : Nat → Nat} {seen : List Nat}
    {entries : List (Nat × Nat)} (h : checkKeyElements mathSqrt seen entries = .ok ⟨⟩) :
    ∀ k ∈ entries.map Prod.fst, isPrime mathSqrt k = true := by
  induction entries generalizing seen with
  | nil => simp
  | cons entry entries ih =>
      obtain ⟨k, i⟩ := entry
      rw [checkKeyElements] at h
      split at h
      case isTrue => cases h
      case isFalse hprime =>
        split at h
        case isTrue => cases h
        case isFalse =>
          rw [List.map_cons, List.forall_mem_cons]
          exact ⟨by simpa using hprime, ih h⟩

/-- What `_validate_key` checks in front of its last loop. -/
theorem of_validateKey {mathSqrt : Nat → Nat} (h : validateKey mathSqrt key = .ok ⟨⟩) :
    key ≠ [] ∧ key.length ≤ 128 ∧ (∀ k ∈ key, 1000000 ≤ k ∧ k ≤ 14999999) ∧
      checkKeyElements mathSqrt [] key.zipIdx = .ok ⟨⟩ := by
  rw [validateKey] at h
  split at h
  case isTrue => cases h
  case isFalse hempty =>
    split at h
    case isTrue => cases h
    case isFalse hlong =>
      obtain ⟨⟨⟩, hrange, helements⟩ := bind_eq_ok.mp h
      rw [forM_eq_ok] at hrange
      refine ⟨by simpa using hempty, Nat.le_of_not_lt hlong, ?_, helements⟩
      intro k hk
      obtain ⟨i, hi, rfl⟩ := List.getElem_of_mem hk
      have hcheck := hrange (key[i], i) (List.mem_zipIdx_iff_getElem?.mpr (by simp [hi]))
      simp only [checkKeyRange] at hcheck
      split at hcheck
      case isTrue => cases hcheck
      case isFalse hmin =>
        split at hcheck
        case isTrue => cases hcheck
        case isFalse hmax =>
          simp only [minKeyPrime, maxKeyPrime] at hmin hmax
          omega

/-- What `_validate_key` accepts is usable, whatever its square roots are. -/
theorem keyUsable_of_validateKey {mathSqrt : Nat → Nat} (h : validateKey mathSqrt key = .ok ⟨⟩) :
    Rust.KeyUsable key := by
  obtain ⟨hempty, hlen, hrange, helements⟩ := of_validateKey h
  refine ⟨hempty, hlen, ?_, ?_⟩
  · intro k hk
    have := hrange k hk
    omega
  · have hnodup := (nodup_of_checkKeyElements helements).1
    rwa [List.zipIdx_map_fst] at hnodup

theorem keyBytes_of_validateKey {mathSqrt : Nat → Nat} (h : validateKey mathSqrt key = .ok ⟨⟩) :
    keyBytes key = .ok (Rust.keyBytes key) :=
  keyBytes_eq_ok fun k hk => ((keyUsable_of_validateKey h).range k hk).2

theorem prime_of_isPrime {mathSqrt : Nat → Nat} {n : Nat} (hsqrt : mathSqrt n = n.sqrt)
    (h : isPrime mathSqrt n = true) : n.Prime := by
  rw [isPrime] at h
  split at h
  case isTrue => cases h
  case isFalse hsmall =>
    split at h
    case isTrue htwo =>
      rw [beq_iff_eq.mp htwo]
      exact Nat.prime_two
    case isFalse =>
      split at h
      case isTrue => cases h
      case isFalse heven =>
        rw [beq_iff_eq] at heven
        rw [hsqrt] at h
        refine (oddScan_sqrt_eq_true (by omega) (by omega) (by decide) ?_ ?_).mp h
        · intro d hlow hhigh
          omega
        · intro _
          decide

/-- With exact square roots it is a tuple of primes. -/
theorem keyValid_of_validateKey {mathSqrt : Nat → Nat}
    (hsqrt : ∀ n ≤ 14999999, mathSqrt n = n.sqrt) (h : validateKey mathSqrt key = .ok ⟨⟩) :
    KeyValid key := by
  obtain ⟨hempty, hlen, hrange, helements⟩ := of_validateKey h
  have hprime := isPrime_of_checkKeyElements helements
  rw [List.zipIdx_map_fst] at hprime
  exact
    { nonempty := hempty
      length_le := hlen
      range := hrange
      prime := fun k hk => prime_of_isPrime (hsqrt k (hrange k hk).2) (hprime k hk)
      nodup := (keyUsable_of_validateKey h).nodup }

/-! ## LEB128 -/

theorem high_bit_eq_zero_iff (b : UInt8) : b &&& 0x80 = 0 ↔ b.toNat < 128 := by
  have hlt := b.toNat_lt
  have hand : (b &&& 0x80).toNat = b.toNat / 128 % 2 * 128 := by
    rw [UInt8.toNat_and, show (0x80 : UInt8).toNat = 2 ^ 7 from rfl, Nat.and_two_pow,
      Nat.toNat_testBit]
    rfl
  rw [← UInt8.toNat_inj, hand]
  show b.toNat / 128 % 2 * 128 = 0 ↔ _
  omega

theorem low_seven (n : Nat) : n &&& 0x7F = n % 128 := Nat.and_two_pow_sub_one_eq_mod n 7

theorem continued_byte (n : Nat) : (n &&& 0x7F) ||| 0x80 = n % 128 + 128 := by
  have hlow : n % 128 < 2 ^ 7 := Nat.mod_lt n (by decide)
  have hor := Nat.shiftLeft_add_eq_or_of_lt hlow 1
  rw [low_seven, Nat.or_comm]
  exact hor.symm.trans (Nat.add_comm _ _)

/-- The seven bits of a byte of a token. -/
theorem payload_ofNat {m : Nat} (h : m < 256) : (UInt8.ofNat m).toNat &&& 0x7F = m % 128 := by
  rw [UInt8.toNat_ofNat', Nat.mod_eq_of_lt h, low_seven]

/-- Every byte of a token but the last announces another one. -/
theorem b128EncodeToken_split (n : Nat) :
    ∃ front last, b128EncodeToken n = front ++ [last] ∧ (∀ b ∈ front, b &&& 0x80 ≠ 0) ∧
      last &&& 0x80 = 0 := by
  induction n using b128EncodeToken.induct with
  | case1 n hlong ih =>
      obtain ⟨front, last, heq, hfront, hlast⟩ := ih
      rw [b128EncodeToken, if_pos hlong, heq]
      refine ⟨UInt8.ofNat ((n &&& 0x7F) ||| 0x80) :: front, last, rfl, ?_, hlast⟩
      intro b hb
      rcases List.mem_cons.mp hb with rfl | hb
      · rw [continued_byte, ne_eq, high_bit_eq_zero_iff, UInt8.toNat_ofNat']
        omega
      · exact hfront b hb
  | case2 n hshort =>
      rw [b128EncodeToken, if_neg hshort]
      refine ⟨[], _, rfl, by simp, ?_⟩
      rw [low_seven, high_bit_eq_zero_iff, UInt8.toNat_ofNat']
      omega

theorem or_shiftLeft {value shift : Nat} (h : value < 2 ^ shift) (x : Nat) :
    value ||| x <<< shift = value + x * 2 ^ shift := by
  rw [Nat.or_comm, shiftLeft_or_eq h, Nat.add_comm]

/-- The bytes of a token add its value at the shift reached. -/
theorem foldl_b128EncodeToken (n value shift : Nat) (hvalue : value < 2 ^ shift) :
    ((b128EncodeToken n).foldl
      (fun (value, shift) vb => (value ||| ((vb.toNat &&& 0x7F) <<< shift), shift + 7))
      (value, shift)).1 = value + n * 2 ^ shift := by
  induction n using b128EncodeToken.induct generalizing value shift with
  | case1 n hlong ih =>
      have hsum : value + n % 128 * 2 ^ shift < 2 ^ (shift + 7) := by
        have hstep : n % 128 * 2 ^ shift ≤ 127 * 2 ^ shift := Nat.mul_le_mul_right _ (by omega)
        rw [Nat.pow_add]
        omega
      rw [b128EncodeToken, if_pos hlong, List.foldl_cons, continued_byte]
      simp only
      rw [payload_ofNat (by omega), Nat.add_mod_right, Nat.mod_mod, or_shiftLeft hvalue,
        ih _ _ hsum, Nat.shiftRight_eq_div_pow, Nat.pow_add, show 2 ^ 7 = 128 from rfl]
      calc value + n % 128 * 2 ^ shift + n / 128 * (2 ^ shift * 128)
          = value + (128 * (n / 128) + n % 128) * 2 ^ shift := by ring
        _ = value + n * 2 ^ shift := by rw [Nat.div_add_mod]
  | case2 n hshort =>
      rw [b128EncodeToken, if_neg hshort, List.foldl_cons, List.foldl_nil]
      simp only
      rw [payload_ofNat (by rw [low_seven]; omega), low_seven, Nat.mod_mod,
        Nat.mod_eq_of_lt (by omega), or_shiftLeft hvalue]

/-- LEB128 round trip. -/
theorem varintValue_b128EncodeToken (n : Nat) : varintValue (b128EncodeToken n) = n := by
  rw [varintValue, foldl_b128EncodeToken n 0 0 (by decide), Nat.zero_add, Nat.pow_zero, Nat.mul_one]

theorem length_b128EncodeToken_pos (n : Nat) : 0 < (b128EncodeToken n).length := by
  obtain ⟨front, last, heq, -, -⟩ := b128EncodeToken_split n
  rw [heq, List.length_append]
  exact Nat.succ_pos _

theorem length_b128EncodeToken_le {w n : Nat} (h : n < 128 ^ (w + 1)) :
    (b128EncodeToken n).length ≤ w + 1 := by
  induction w generalizing n with
  | zero =>
      rw [b128EncodeToken, if_neg (by omega)]
      exact Nat.le_refl 1
  | succ w ih =>
      rw [b128EncodeToken]
      split
      case isTrue =>
        have hshift : n >>> 7 < 128 ^ (w + 1) := by
          rw [Nat.shiftRight_eq_div_pow]
          rw [Nat.pow_succ] at h
          omega
        exact Nat.succ_le_succ (ih hshift)
      case isFalse => exact Nat.succ_le_succ (Nat.zero_le _)

/-! ## Decoding -/

theorem decodeBytes_append (bs bs' : List UInt8) (st : Decoder) :
    decodeBytes H noise key kb nonce (bs ++ bs') st =
      decodeBytes H noise key kb nonce bs st >>= decodeBytes H noise key kb nonce bs' := by
  induction bs generalizing st with
  | nil => rfl
  | cons b bs ih =>
      rw [List.cons_append, decodeBytes, decodeBytes, Gen.bind_assoc]
      exact congrArg _ (funext ih)

/-- What the decoding loop does with a complete token. -/
def decodeToken (H : Hmac) (noise : Noise) (key : List Nat) (kb nonce : List UInt8)
    (value pos idx : Nat) : Gen PyErr Nat Decoder := do
  if ¬ (← isNoisePos noise kb nonce pos) then
    let k ← keyAt key idx
    let addend ← deriveAddend H kb nonce idx k
    Gen.yield (← chrInt (((value : Int) - addend).fdiv k))
    return ⟨[], pos + 1, idx + 1⟩
  else return ⟨[], pos + 1, idx⟩

theorem decodeBytes_continued {front : List UInt8} (h : ∀ b ∈ front, b &&& 0x80 ≠ 0)
    (buf : List UInt8) (pos idx : Nat) :
    decodeBytes H noise key kb nonce front ⟨buf, pos, idx⟩ =
      ⟨[], .ok ⟨buf ++ front, pos, idx⟩⟩ := by
  induction front generalizing buf with
  | nil => rw [List.append_nil]; rfl
  | cons b front ih =>
      have hbyte : decodeByte H noise key kb nonce ⟨buf, pos, idx⟩ b =
          ⟨[], .ok ⟨buf ++ [b], pos, idx⟩⟩ := if_neg (h b List.mem_cons_self)
      rw [decodeBytes, hbyte, Gen.ok_bind, ih fun b' hb' => h b' (List.mem_cons_of_mem b hb'),
        List.append_assoc]
      rfl

/-- The bytes of a token are decoded to its value. -/
theorem decodeBytes_b128EncodeToken (n pos idx : Nat) :
    decodeBytes H noise key kb nonce (b128EncodeToken n) ⟨[], pos, idx⟩ =
      decodeToken H noise key kb nonce n pos idx := by
  obtain ⟨front, last, heq, hfront, hlast⟩ := b128EncodeToken_split n
  have hbyte : decodeByte H noise key kb nonce ⟨front, pos, idx⟩ last =
      decodeToken H noise key kb nonce (varintValue (front ++ [last])) pos idx := if_pos hlast
  have hend : ∀ x : Gen PyErr Nat Decoder,
      (x >>= fun st => decodeBytes H noise key kb nonce [] st) = x := by
    intro x
    obtain ⟨xs, outcome⟩ := x
    cases outcome with
    | ok st => simp [decodeBytes]
    | error e => rfl
  rw [heq, decodeBytes_append, decodeBytes_continued hfront, Gen.ok_bind, List.nil_append,
    List.nil_append, decodeBytes, hbyte, ← heq, varintValue_b128EncodeToken, hend]

theorem decodeToken_noise {pos : Nat} (hpos : pos < 2 ^ 40) (hnoise : noise kb nonce pos = true)
    (value idx : Nat) :
    decodeToken H noise key kb nonce value pos idx = ⟨[], .ok ⟨[], pos + 1, idx⟩⟩ := by
  have hclass : isNoisePos noise kb nonce pos = .ok true := isNoisePos_eq_ok_iff.mpr ⟨hpos, hnoise⟩
  rw [decodeToken, hclass]
  rfl

theorem decodeToken_real (hkey : Rust.KeyUsable key) {pos idx c : Nat} (hpos : pos < 2 ^ 40)
    (hidx : idx < 2 ^ 40) (hfree : noise kb nonce pos = false) (hc : c ≤ 0x10FFFF) :
    decodeToken H noise key kb nonce (realToken H key kb nonce idx c) pos idx =
      ⟨[c], .ok ⟨[], pos + 1, idx + 1⟩⟩ := by
  have hclass : isNoisePos noise kb nonce pos = .ok false :=
    isNoisePos_eq_ok_iff.mpr ⟨hpos, hfree⟩
  have hk := (hkey.keyElem_range idx).1
  have haddend : deriveAddend H kb nonce idx (keyElem key idx) =
      .ok (realAddend H key kb nonce idx) := deriveAddend_of_two_le H kb nonce hk hidx
  have hvalue : ((realToken H key kb nonce idx c : Int) - realAddend H key kb nonce idx).fdiv
      (keyElem key idx) = c := by
    rw [Int.fdiv_eq_ediv_of_nonneg _ (by omega), realToken, Nat.cast_add, Nat.cast_mul,
      Int.add_sub_cancel]
    exact Int.mul_ediv_cancel _ (by omega)
  have hchr : chrInt (c : Int) = .ok c := chrInt_eq_ok_iff.mpr ⟨⟨by omega, by omega⟩, by omega⟩
  rw [decodeToken, hclass, keyAt_of_ne_nil hkey.nonempty]
  simp only [Gen.liftM_ok_bind, haddend, hvalue, hchr]
  rfl

/-- The decoding loop reads a placement back. -/
theorem decodeBytes_of_placed (hkey : Rust.KeyUsable key) {idx pos : Nat} {cps slots : List Nat}
    (h : Schedule.Placed (noise kb nonce) (realToken H key kb nonce) idx pos cps slots)
    (hcps : ∀ c ∈ cps, c ≤ 0x10FFFF) (hidx : idx ≤ pos) (hpos : pos + slots.length ≤ 2 ^ 40) :
    decodeBytes H noise key kb nonce (slots.flatMap b128EncodeToken) ⟨[], pos, idx⟩ =
      ⟨cps, .ok ⟨[], pos + slots.length, idx + cps.length⟩⟩ := by
  induction h with
  | nil idx pos => rfl
  | noise t hnoise _ ih =>
      rw [List.length_cons] at hpos ⊢
      rw [List.flatMap_cons, decodeBytes_append, decodeBytes_b128EncodeToken,
        decodeToken_noise (by omega) hnoise, Gen.ok_bind, ih hcps (by omega) (by omega),
        List.nil_append, Nat.add_right_comm, Nat.add_assoc]
  | item c hfree _ ih =>
      rw [List.length_cons] at hpos ⊢
      rw [List.flatMap_cons, decodeBytes_append, decodeBytes_b128EncodeToken,
        decodeToken_real hkey (by omega) (by omega) hfree (hcps c List.mem_cons_self), Gen.ok_bind,
        ih (fun d hd => hcps d (List.mem_cons_of_mem c hd)) (by omega) (by omega),
        List.length_cons, Nat.add_right_comm _ 1, Nat.add_assoc, Nat.add_right_comm _ 1,
        Nat.add_assoc]
      rfl

/-! ## Keystream -/

section
variable (H kb nonce)

/-- Byte number `i` of the keystream. -/
def keystreamByte (i : Nat) : UInt8 :=
  (H kb (Rust.keystreamInput nonce (i / 32))).toList.getD (i % 32) 0

/-- `data` masked at an offset of the keystream. -/
def maskAt (offset : Nat) (data : List UInt8) : List UInt8 :=
  xorBytes data ((List.range' offset data.length).map (keystreamByte H kb nonce))

/-- The generator and its buffer after `offset` bytes have been used. -/
structure Keystream.At (offset : Nat) (ks : Keystream) : Prop where
  le : offset ≤ 32 * ks.block
  block_le : ks.block ≤ 2 ^ 32
  buf : ks.buf = (List.range' offset (32 * ks.block - offset)).map (keystreamByte H kb nonce)

end

@[simp] theorem length_maskAt (offset : Nat) (data : List UInt8) :
    (maskAt H kb nonce offset data).length = data.length := by
  simp [maskAt]

theorem maskAt_append (offset : Nat) (a b : List UInt8) :
    maskAt H kb nonce offset (a ++ b) =
      maskAt H kb nonce offset a ++ maskAt H kb nonce (offset + a.length) b := by
  have hrange : List.range' offset (a ++ b).length =
      List.range' offset a.length ++ List.range' (offset + a.length) b.length := by
    rw [List.length_append, List.range'_append_1]
  rw [maskAt, hrange, List.map_append, xorBytes, List.zipWith_append (by simp)]
  rfl

/-- Masking twice at one offset gives the data back. -/
theorem maskAt_maskAt (offset : Nat) (data : List UInt8) :
    maskAt H kb nonce offset (maskAt H kb nonce offset data) = data := by
  rw [maskAt, length_maskAt]
  exact xorBytes_cancel _ _ (by simp)

theorem digest_eq_map_keystreamByte (block : Nat) :
    (H kb (Rust.keystreamInput nonce block)).toList =
      (List.range' (32 * block) 32).map (keystreamByte H kb nonce) := by
  apply List.ext_getElem
  · simp
  · intro i hi _
    rw [FixedBytes.length_toList] at hi
    rw [List.getElem_map, List.getElem_range', keystreamByte,
      show (32 * block + 1 * i) / 32 = block by omega,
      show (32 * block + 1 * i) % 32 = i by omega, List.getD_eq_getElem?_getD,
      List.getElem?_eq_getElem (by rw [FixedBytes.length_toList]; exact hi), Option.getD_some]

theorem Keystream.At.init : Keystream.At H kb nonce 0 ⟨0, []⟩ :=
  ⟨Nat.zero_le _, Nat.zero_le _, rfl⟩

variable {offset : Nat} {ks ks' : Keystream}

theorem Keystream.At.length_buf (h : ks.At H kb nonce offset) :
    offset + ks.buf.length = 32 * ks.block := by
  have hle := h.le
  rw [h.buf, List.length_map, List.length_range']
  omega

/-- One block more. -/
theorem Keystream.At.extend (h : ks.At H kb nonce offset) (hblock : ks.block < 2 ^ 32) :
    Keystream.At H kb nonce offset
      ⟨ks.block + 1, ks.buf ++ (H kb (Rust.keystreamInput nonce ks.block)).toList⟩ := by
  have hle := h.le
  refine ⟨by simp only; omega, hblock, ?_⟩
  show ks.buf ++ _ = (List.range' offset (32 * (ks.block + 1) - offset)).map _
  rw [h.buf, digest_eq_map_keystreamByte, ← List.map_append,
    show 32 * (ks.block + 1) - offset = 32 * ks.block - offset + 32 by omega,
    ← List.range'_append_1, show offset + (32 * ks.block - offset) = 32 * ks.block by omega]

theorem Keystream.pull_step (n : Nat) (hshort : ks.buf.length < n) (hblock : ks.block < 2 ^ 32) :
    ks.pull H kb nonce n = Keystream.pull H kb nonce n
      ⟨ks.block + 1, ks.buf ++ (H kb (Rust.keystreamInput nonce ks.block)).toList⟩ := by
  rw [Keystream.pull, dif_pos hshort, toBytes_of_lt hblock, ok_bind]
  rfl

/-- What `pull` returns covers the request. -/
theorem Keystream.At.of_pull (h : ks.At H kb nonce offset) {n : Nat}
    (hpull : ks.pull H kb nonce n = .ok ks') :
    ks'.At H kb nonce offset ∧ n ≤ ks'.buf.length := by
  induction hleft : n - ks.buf.length using Nat.strong_induction_on generalizing ks with
  | _ left ih =>
      by_cases hshort : ks.buf.length < n
      · by_cases hblock : ks.block < 2 ^ 32
        · rw [Keystream.pull_step n hshort hblock] at hpull
          refine ih _ ?_ (h.extend hblock) hpull rfl
          rw [List.length_append, FixedBytes.length_toList]
          omega
        · rw [Keystream.pull, dif_pos hshort, @toBytes_of_not_lt 4 _ hblock] at hpull
          cases hpull
      · rw [Keystream.pull, dif_neg hshort] at hpull
        cases hpull
        exact ⟨h, Nat.le_of_not_lt hshort⟩

/-- Up to the end of the counter `pull` returns. -/
theorem Keystream.At.exists_pull (h : ks.At H kb nonce offset) {n : Nat}
    (hn : offset + n ≤ 32 * 2 ^ 32) : ∃ ks', ks.pull H kb nonce n = .ok ks' := by
  induction hleft : n - ks.buf.length using Nat.strong_induction_on generalizing ks with
  | _ left ih =>
      by_cases hshort : ks.buf.length < n
      · have hlen := h.length_buf
        have hblock : ks.block < 2 ^ 32 := by omega
        rw [Keystream.pull_step n hshort hblock]
        refine ih _ ?_ (h.extend hblock) rfl
        rw [List.length_append, FixedBytes.length_toList]
        omega
      · rw [Keystream.pull, dif_neg hshort]
        exact ⟨ks, rfl⟩

/-- A call of `mask` masks at the offset reached and moves it on. -/
theorem Keystream.At.of_mask (h : ks.At H kb nonce offset) {data masked : List UInt8}
    (hmask : ks.mask H kb nonce data = .ok (masked, ks')) :
    masked = maskAt H kb nonce offset data ∧ ks'.At H kb nonce (offset + data.length) ∧
      offset + data.length ≤ 32 * 2 ^ 32 := by
  obtain ⟨pulled, hpull, hout⟩ := bind_eq_ok.mp hmask
  obtain ⟨rfl, rfl⟩ := Prod.mk.inj (Except.ok.inj hout)
  obtain ⟨hat, hcover⟩ := h.of_pull hpull
  have hlen := hat.length_buf
  have hblock := hat.block_le
  refine ⟨?_, ⟨by simp only; omega, hblock, ?_⟩, by omega⟩
  · rw [maskAt, hat.buf, ← List.map_take, List.take_range'_of_length_ge (by omega)]
  · show pulled.buf.drop data.length =
      (List.range' (offset + data.length) (32 * pulled.block - (offset + data.length))).map _
    rw [hat.buf, ← List.map_drop, List.drop_range', Nat.mul_one, Nat.sub_add_eq]

theorem Keystream.At.exists_mask (h : ks.At H kb nonce offset) {data : List UInt8}
    (hn : offset + data.length ≤ 32 * 2 ^ 32) :
    ∃ ks', ks.mask H kb nonce data = .ok (maskAt H kb nonce offset data, ks') ∧
      ks'.At H kb nonce (offset + data.length) := by
  obtain ⟨pulled, hpull⟩ := h.exists_pull hn
  have hmask : ks.mask H kb nonce data = .ok (xorBytes data (pulled.buf.take data.length),
      { pulled with buf := pulled.buf.drop data.length }) := by
    rw [Keystream.mask, hpull]
    rfl
  obtain ⟨hdata, hat, -⟩ := h.of_mask hmask
  rw [hdata] at hmask
  exact ⟨_, hmask, hat⟩

/-! ## Emission -/

theorem emitChar_noise (hkey : Rust.KeyUsable key) {pos : Nat} (hpos : pos < 2 ^ 40)
    (hnoise : noise kb nonce pos = true) (c idx : Nat) (buf : List UInt8) :
    emitChar H noise key kb nonce c idx pos buf =
      emitChar H noise key kb nonce c idx (pos + 1)
        (buf ++ b128EncodeToken (fillerToken H key kb nonce idx pos)) := by
  have hclass : isNoisePos noise kb nonce pos = .ok true := isNoisePos_eq_ok_iff.mpr ⟨hpos, hnoise⟩
  rw [emitChar]
  split
  case h_1 e he => rw [hclass] at he; cases he
  case h_2 he =>
    rw [noiseToken_of_two_le H kb nonce hkey.nonempty (hkey.keyElem_range idx).1 hpos, ok_bind]
  case h_3 he => rw [hclass] at he; cases he

theorem emitChar_free (hkey : Rust.KeyUsable key) {pos idx : Nat} (hpos : pos < 2 ^ 40)
    (hidx : idx < 2 ^ 40) (hfree : noise kb nonce pos = false) (c : Nat) (buf : List UInt8) :
    emitChar H noise key kb nonce c idx pos buf =
      .ok (buf ++ b128EncodeToken (realToken H key kb nonce idx c), pos + 1) := by
  have hclass : isNoisePos noise kb nonce pos = .ok false := isNoisePos_eq_ok_iff.mpr ⟨hpos, hfree⟩
  rw [emitChar]
  split
  case h_1 e he => rw [hclass] at he; cases he
  case h_2 he => rw [hclass] at he; cases he
  case h_3 he =>
    rw [keyAt_of_ne_nil hkey.nonempty, ok_bind,
      deriveAddend_of_two_le H kb nonce (hkey.keyElem_range idx).1 hidx, ok_bind]
    rfl

theorem lt_of_emitChar {pos idx c : Nat} {buf : List UInt8} {out : List UInt8 × Nat}
    (h : emitChar H noise key kb nonce c idx pos buf = .ok out) : pos < 2 ^ 40 := by
  by_contra hpos
  have hover : ∀ b, isNoisePos noise kb nonce pos ≠ .ok b :=
    fun b hb => hpos (isNoisePos_eq_ok_iff.mp hb).1
  rw [emitChar] at h
  split at h
  case h_1 => cases h
  case h_2 he => exact hover _ he
  case h_3 he => exact hover _ he

/-- The loop for a character appends the tokens of a placement of it. -/
theorem placed_of_emitChar (hkey : Rust.KeyUsable key) {c idx pos pos' : Nat} {buf out : List UInt8}
    (hidx : idx ≤ pos) (h : emitChar H noise key kb nonce c idx pos buf = .ok (out, pos')) :
    ∃ slots, out = buf ++ slots.flatMap b128EncodeToken ∧ pos' = pos + slots.length ∧
      idx < pos' ∧ pos' ≤ 2 ^ 40 ∧
      Schedule.Placed (noise kb nonce) (realToken H key kb nonce) idx pos [c] slots := by
  induction hleft : 2 ^ 40 - pos using Nat.strong_induction_on generalizing pos buf with
  | _ left ih =>
      have hpos := lt_of_emitChar h
      cases hclass : noise kb nonce pos with
      | true =>
          rw [emitChar_noise hkey hpos hclass] at h
          obtain ⟨slots, rfl, rfl, hnext, hend, hplaced⟩ := ih _ (by omega) (by omega) h rfl
          refine ⟨fillerToken H key kb nonce idx pos :: slots, ?_, ?_, hnext, hend, ?_⟩
          · rw [List.flatMap_cons, List.append_assoc]
          · rw [List.length_cons]
            omega
          · exact .noise _ hclass hplaced
      | false =>
          rw [emitChar_free hkey hpos (by omega) hclass] at h
          obtain ⟨rfl, rfl⟩ := Prod.mk.inj (Except.ok.inj h)
          refine ⟨[realToken H key kb nonce idx c], by simp, rfl, by omega, hpos, ?_⟩
          exact .item c hclass (.nil _ _)

/-- A run of noise and the character behind it. -/
theorem emitChar_eq_ok (hkey : Rust.KeyUsable key) {pos idx n : Nat}
    (hnoise : ∀ i < n, noise kb nonce (pos + i) = true) (hfree : noise kb nonce (pos + n) = false)
    (hpos : pos + n < 2 ^ 40) (hidx : idx < 2 ^ 40) (c : Nat) (buf : List UInt8) :
    emitChar H noise key kb nonce c idx pos buf =
      .ok (buf ++ ((List.range' pos n).map (fillerToken H key kb nonce idx) ++
        [realToken H key kb nonce idx c]).flatMap b128EncodeToken, pos + n + 1) := by
  induction n generalizing pos buf with
  | zero =>
      rw [Nat.add_zero] at hfree hpos
      rw [emitChar_free hkey hpos hidx hfree]
      simp
  | succ n ih =>
      have hnext : ∀ i, pos + 1 + i = pos + (i + 1) := fun i => by omega
      have hfirst : noise kb nonce pos = true := hnoise 0 (Nat.succ_pos n)
      rw [emitChar_noise hkey (by omega) hfirst, ih
        (fun i hi => by rw [hnext]; exact hnoise (i + 1) (by omega)) (by rw [hnext]; exact hfree)
        (by omega)]
      simp only [List.range'_succ, List.map_cons, List.cons_append, List.flatMap_cons,
        List.append_assoc, hnext]

/-- The raw bytes of a plaintext: tokens that carry it, within the counters of the format. -/
structure Emitted (H : Hmac) (noise : Noise) (key : List Nat) (kb nonce : List UInt8)
    (plaintext : List Nat) (raw : List UInt8) : Prop where
  tokens : ∃ slots,
    Schedule.Placed (noise kb nonce) (realToken H key kb nonce) 0 0 plaintext slots ∧
    slots.length ≤ 2 ^ 40 ∧ raw = slots.flatMap b128EncodeToken
  length_le : raw.length ≤ 32 * 2 ^ 32

/-- The raw bytes are decoded to the plaintext. -/
theorem Emitted.decodeBytes_eq (hkey : Rust.KeyUsable key) {plaintext : List Nat}
    {raw : List UInt8} (h : Emitted H noise key kb nonce plaintext raw)
    (hplain : ∀ c ∈ plaintext, c ≤ 0x10FFFF) :
    ∃ st, decodeBytes H noise key kb nonce raw ⟨[], 0, 0⟩ = ⟨plaintext, .ok st⟩ := by
  obtain ⟨slots, hplaced, hpos, rfl⟩ := h.tokens
  exact ⟨_, decodeBytes_of_placed hkey hplaced hplain (Nat.le_refl 0) (by omega)⟩

end Napqes.Python
