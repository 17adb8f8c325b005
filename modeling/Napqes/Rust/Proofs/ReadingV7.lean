import Napqes.Format.BlockV7

/-!
# What `decrypt_bytes` reads out of a v7 block

The Rust decoder accepts only tokens of the exact form, and scalar values, so what it returns is the
reading of the Python decoder.
-/

namespace Napqes.Rust

variable {H : Hmac} {noise : Noise} {key : List Nat} {kb nonce : List UInt8}

/-- A token of the exact form is divided without a remainder. -/
theorem floorValue_of_exact {idx token : Nat}
    (h : ¬ (token < realAddend H key kb nonce idx ∨
      (token - realAddend H key kb nonce idx) % keyElem key idx ≠ 0)) :
    floorValue H key kb nonce idx token =
      ((token - realAddend H key kb nonce idx) / keyElem key idx : Nat) := by
  rw [floorValue, Int.natCast_ediv, Int.natCast_sub (by omega)]

/-- The loop returns the values of the tokens at the free positions. -/
theorem values_of_decryptTokensV7 (hkey : KeyUsable key) {tokens : List Nat} {pos idx : Nat}
    {acc out : List Nat}
    (h : decryptTokensV7 H noise nonce key kb tokens pos idx acc = .ok out) :
    ∃ vals : List Nat, out = acc ++ vals ∧ (∀ v ∈ vals, IsScalar v) ∧
      ((Schedule.free (noise kb nonce) pos tokens).mapIdx fun i t =>
        floorValue H key kb nonce (idx + i) t) = vals.map Int.ofNat := by
  induction tokens generalizing pos idx acc with
  | nil =>
      cases h
      exact ⟨[], by simp, by simp, rfl⟩
  | cons token tokens ih =>
      rw [decryptTokensV7] at h
      rw [Schedule.free]
      by_cases hnoise : noise kb nonce pos = true
      · rw [if_neg (not_not_intro hnoise)] at h
        rw [if_pos hnoise]
        exact ih h
      · rw [if_pos hnoise, keyAt_of_ne_nil hkey.nonempty, ok_bind, hkey.deriveAddend_eq,
          ok_bind] at h
        rw [if_neg hnoise]
        split at h
        case isTrue => cases h
        case isFalse hexact =>
          dsimp only at h
          split at h
          case isTrue hscalar =>
            obtain ⟨vals, rfl, hvals, hread⟩ := ih h
            refine ⟨_ :: vals, by rw [List.append_assoc]; rfl,
              List.forall_mem_cons.mpr ⟨hscalar, hvals⟩, ?_⟩
            rw [List.mapIdx_cons, List.map_cons, ← hread]
            simp only [Nat.add_zero, Nat.add_assoc, Nat.add_comm 1, floorValue_of_exact hexact]
            rfl
          case isFalse => cases h

/-- `unpad_message` takes the length that Python reads. -/
theorem floorLength_of_unpadMessage {vals out : List Nat} (hvals : ∀ v ∈ vals, IsScalar v)
    (h : unpadMessage vals = .ok out) :
    ∃ n, floorLength (vals.map Int.ofNat) = some n ∧
      out = (((vals.map Int.ofNat).drop 2).take n).map Int.toNat := by
  match vals, h with
  | hi :: lo :: rest, h =>
      rw [unpadMessage] at h
      split at h
      case isTrue => cases h
      case isFalse hbytes =>
        dsimp only at h
        split at h
        case isTrue => cases h
        case isFalse hfits =>
          cases h
          have hfirst : Int.lor ((hi : Int) <<< 8) lo = (hi <<< 8 ||| lo : Nat) := rfl
          have hcount : sliceCount (rest.map Int.ofNat).length ((hi <<< 8 ||| lo : Nat) : Int) =
              hi <<< 8 ||| lo := by
            rw [sliceCount, if_pos (Int.natCast_nonneg _), Int.toNat_natCast]
          refine ⟨hi <<< 8 ||| lo, floorLength_eq_some_iff.mpr ⟨hi, lo, rest.map Int.ofNat, rfl,
            by omega, by omega, ?_, ?_, ?_⟩, ?_⟩
          · rw [hfirst, List.length_map]
            omega
          · rw [hfirst, hcount]
          · intro v hv
            obtain ⟨c, hc, rfl⟩ := List.mem_map.mp (List.mem_of_mem_take hv)
            have hscalar := hvals c (by simp [hc])
            exact ⟨Int.natCast_nonneg c, Int.ofNat_le.mpr hscalar.1⟩
          · rw [List.map_cons, List.map_cons, List.drop_succ_cons, List.drop_succ_cons,
              List.drop_zero, ← List.map_take, List.map_map]
            exact (List.map_id _).symm

/-- The string that the closure of `decrypt_bytes` builds has the given code points. -/
theorem codepoints_of_collectEnumerated {i : Nat} {cps : List Nat} {s : Str}
    (h : collectEnumerated charOrErr i cps = .ok s) : s.codepoints = cps := by
  induction cps generalizing i s with
  | nil =>
      cases h
      rfl
  | cons c cps ih =>
      rw [collectEnumerated] at h
      obtain ⟨ch, hch, h⟩ := bind_eq_ok.mp h
      obtain ⟨rest, hrest, h⟩ := bind_eq_ok.mp h
      cases h
      rw [charOrErr] at hch
      split at hch
      case h_1 found hfound =>
        cases hch
        rw [Str.codepoints, List.map_cons, charFromU32_eq_some hfound, ← ih hrest]
        rfl
      case h_2 => cases hch

/-- What `decrypt_bytes` accepts is authentic, and it returns its reading. -/
theorem reading_of_decryptBytes (hkey : KeyValid key) {ciphertext aad : List UInt8} {s : Str}
    (h : decryptBytes H noise ciphertext key aad = .ok s) :
    ∃ nonce masked n, AuthenticV7 H (keyBytes key) aad ciphertext nonce masked ∧
      (∀ v ∈ floorValues H key (keyBytes key) nonce noise masked, 0 ≤ v) ∧
      floorLength (floorValues H key (keyBytes key) nonce noise masked) = some n ∧
      s.codepoints = (((floorValues H key (keyBytes key) nonce noise masked).drop 2).take n).map
        Int.toNat := by
  have husable := KeyUsable.of_keyValid hkey
  obtain ⟨cps, hopen, hchars⟩ := bind_eq_ok.mp h
  have haad : aad.length < 2 ^ 32 := by
    obtain ⟨⟨⟩, hcheck, -⟩ := bind_eq_ok.mp hopen
    exact (checkV7AadLen_eq_ok_iff _).mp hcheck
  by_cases hlong : 48 ≤ ciphertext.length
  · obtain ⟨nonce, masked, tag, hnonce, htag, rfl⟩ := exists_nonce_masked_tag hlong
    rw [openV7_append hnonce htag haad] at hopen
    split at hopen
    case isTrue => cases hopen
    case isFalse hok =>
      simp only [bind_eq_ok] at hopen
      obtain ⟨⟨⟩, -, ks, hks, tokens, htokens, hcore⟩ := hopen
      have hreach : masked.length ≤ 32 * (2 ^ 32 - 1) :=
        le_of_varintKeystream_eq_ok H _ _ hks
      rw [varintKeystream_eq_ok H _ _ hreach] at hks
      cases hks
      rw [← maskWith] at htokens
      obtain ⟨hwhole, rfl⟩ := (fixedDecodeTokens_eq_ok_iff _ _).mp (mapErr_eq_ok htokens)
      rw [length_maskWith] at hwhole hcore
      obtain ⟨vals, hvals, hunpad⟩ := bind_eq_ok.mp hcore
      obtain ⟨vals', rfl, hscalar, hread⟩ := values_of_decryptTokensV7 husable hvals
      obtain ⟨n, hlen, hout⟩ := floorLength_of_unpadMessage hscalar hunpad
      simp only [Nat.zero_add] at hread
      refine ⟨nonce, masked, n, ⟨?_, hnonce, haad, hwhole, hreach⟩, ?_, ?_, ?_⟩
      · rw [show tag = (H (keyBytes key) (authTagInputV7 aad nonce masked)).toList by
          simpa [ctEqBytes] using hok]
      · rw [floorValues, realTokens, hread]
        exact List.forall_mem_map.mpr fun v _ => Int.natCast_nonneg v
      · rw [floorValues, realTokens, hread]
        exact hlen
      · rw [codepoints_of_collectEnumerated hchars, floorValues, realTokens, hread]
        exact hout
  · rw [openV7] at hopen
    obtain ⟨-, -, hopen⟩ := bind_eq_ok.mp hopen
    dsimp only at hopen
    rw [if_pos (show ciphertext.length < nonceSize + tagSize by
      rw [nonceSize, tagSize]
      omega)] at hopen
    cases hopen

end Napqes.Rust
