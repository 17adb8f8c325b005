import Napqes.Python.Proofs.Failures
import Napqes.Rust.Proofs.SealingV7

/-!
# When the v7 block sealer in Python returns

Python has no noise guard: a run ends the loop when a position does not fit five bytes. So
`encrypt_bytes` returns the ciphertext of the tokens exactly when these are in reach of its
keystream.
-/

namespace Napqes.Python

variable {H : Hmac} {noise : Noise} {key : List Nat} {kb nonce : List UInt8}

/-! ## Emission -/

theorem emitCodepointV7_noise (hkey : Rust.KeyUsable key) {pos : Nat} (hpos : pos < 2 ^ 40)
    (hnoise : noise kb nonce pos = true) (c idx : Nat) (cypher : List Nat) :
    emitCodepointV7 H noise key kb nonce c idx pos cypher =
      emitCodepointV7 H noise key kb nonce c idx (pos + 1)
        (cypher ++ [fillerToken H key kb nonce idx pos]) := by
  have hclass : isNoisePos noise kb nonce pos = .ok true := isNoisePos_eq_ok_iff.mpr ⟨hpos, hnoise⟩
  rw [emitCodepointV7]
  split
  case h_1 e he => rw [hclass] at he; cases he
  case h_2 he =>
    rw [noiseToken_of_two_le H kb nonce hkey.nonempty (hkey.keyElem_range idx).1 hpos, ok_bind]
  case h_3 he => rw [hclass] at he; cases he

theorem emitCodepointV7_free (hkey : Rust.KeyUsable key) {pos idx : Nat} (hpos : pos < 2 ^ 40)
    (hidx : idx < 2 ^ 40) (hfree : noise kb nonce pos = false) (c : Nat) (cypher : List Nat) :
    emitCodepointV7 H noise key kb nonce c idx pos cypher =
      .ok (cypher ++ [realToken H key kb nonce idx c], pos + 1) := by
  have hclass : isNoisePos noise kb nonce pos = .ok false := isNoisePos_eq_ok_iff.mpr ⟨hpos, hfree⟩
  rw [emitCodepointV7]
  split
  case h_1 e he => rw [hclass] at he; cases he
  case h_2 he => rw [hclass] at he; cases he
  case h_3 he =>
    rw [keyAt_of_ne_nil hkey.nonempty, ok_bind,
      deriveAddend_of_two_le H kb nonce (hkey.keyElem_range idx).1 hidx, ok_bind]
    rfl

theorem lt_of_emitCodepointV7 {pos idx c : Nat} {cypher : List Nat} {out : List Nat × Nat}
    (h : emitCodepointV7 H noise key kb nonce c idx pos cypher = .ok out) : pos < 2 ^ 40 := by
  by_contra hpos
  have hover : ∀ b, isNoisePos noise kb nonce pos ≠ .ok b :=
    fun b hb => hpos (isNoisePos_eq_ok_iff.mp hb).1
  rw [emitCodepointV7] at h
  split at h
  case h_1 => cases h
  case h_2 he => exact hover _ he
  case h_3 he => exact hover _ he

/-- What the loop for one codepoint appends is its emission. -/
theorem emits_of_emitCodepointV7 (hkey : Rust.KeyUsable key) {c idx pos : Nat}
    {cypher : List Nat} {out : List Nat × Nat} (hidx : idx ≤ pos)
    (h : emitCodepointV7 H noise key kb nonce c idx pos cypher = .ok out) :
    ∃ slots, out = (cypher ++ slots, pos + slots.length) ∧ idx < pos + slots.length ∧
      EmitsV7 H noise key kb nonce idx pos [c] slots := by
  induction hleft : 2 ^ 40 - pos using Nat.strong_induction_on generalizing pos cypher with
  | _ left ih =>
      have hpos := lt_of_emitCodepointV7 h
      cases hclass : noise kb nonce pos with
      | true =>
          rw [emitCodepointV7_noise hkey hpos hclass] at h
          obtain ⟨slots, rfl, hnext, hemits⟩ := ih _ (by omega) (by omega) h rfl
          refine ⟨fillerToken H key kb nonce idx pos :: slots, ?_, ?_, .noise hclass hemits⟩
          · rw [List.append_assoc, List.length_cons, Nat.add_assoc, Nat.add_comm 1]
            rfl
          · rw [List.length_cons]
            omega
      | false =>
          rw [emitCodepointV7_free hkey hpos (by omega) hclass] at h
          obtain rfl := Except.ok.inj h
          exact ⟨[_], rfl, by simp only [List.length_singleton]; omega, .item hclass (.nil _ _)⟩

theorem emits_of_emitCodepointsV7 (hkey : Rust.KeyUsable key) {cps : List Nat} {idx pos : Nat}
    {cypher out : List Nat} (hidx : idx ≤ pos)
    (h : emitCodepointsV7 H noise key kb nonce cps idx pos cypher = .ok out) :
    ∃ slots, out = cypher ++ slots ∧ EmitsV7 H noise key kb nonce idx pos cps slots := by
  induction cps generalizing idx pos cypher with
  | nil =>
      cases h
      exact ⟨[], (List.append_nil _).symm, .nil _ _⟩
  | cons c cps ih =>
      rw [emitCodepointsV7] at h
      obtain ⟨first, hfirst, h⟩ := bind_eq_ok.mp h
      obtain ⟨slots, rfl, hnext, hemits⟩ := emits_of_emitCodepointV7 hkey hidx hfirst
      obtain ⟨rest, rfl, hemits'⟩ := ih hnext h
      exact ⟨slots ++ rest, List.append_assoc _ _ _, hemits.append hemits'⟩

/-- An emission within the five-byte positions is what the loop appends. -/
theorem emitCodepointV7_of_emits (hkey : Rust.KeyUsable key) {c idx pos : Nat} {slots : List Nat}
    (h : EmitsV7 H noise key kb nonce idx pos [c] slots) (hidx : idx ≤ pos)
    (hend : pos + slots.length ≤ 2 ^ 40) (cypher : List Nat) :
    emitCodepointV7 H noise key kb nonce c idx pos cypher =
      .ok (cypher ++ slots, pos + slots.length) := by
  generalize hitems : [c] = items at h
  induction h generalizing cypher with
  | nil idx pos => cases hitems
  | @noise idx pos x xs slots hpos _ ih =>
      rw [List.length_cons] at hend
      rw [emitCodepointV7_noise hkey (by omega) hpos, ih (by omega) (by omega) _ hitems,
        List.append_assoc, List.length_cons, Nat.add_assoc, Nat.add_comm 1]
      rfl
  | @item idx pos x xs slots hpos rest _ =>
      obtain ⟨rfl, rfl⟩ := List.cons.inj hitems
      cases rest
      rw [List.length_singleton] at hend
      exact emitCodepointV7_free hkey (by omega) (by omega) hpos c cypher

theorem emitCodepointsV7_of_emits (hkey : Rust.KeyUsable key) {cps : List Nat} {idx pos : Nat}
    {slots : List Nat} (h : EmitsV7 H noise key kb nonce idx pos cps slots) (hidx : idx ≤ pos)
    (hend : pos + slots.length ≤ 2 ^ 40) (cypher : List Nat) :
    emitCodepointsV7 H noise key kb nonce cps idx pos cypher = .ok (cypher ++ slots) := by
  induction cps generalizing idx pos cypher slots with
  | nil =>
      cases h
      rw [List.append_nil]
      rfl
  | cons c cps ih =>
      obtain ⟨first, rest, rfl, hfirst, hrest⟩ := Schedule.emits_cons_iff.mp h
      rw [List.length_append] at hend
      have hlen : 1 ≤ first.length := hfirst.placed.length_le
      rw [emitCodepointsV7, emitCodepointV7_of_emits hkey hfirst hidx (by omega), ok_bind]
      dsimp only
      rw [ih hrest (by omega) (by omega), List.append_assoc]

/-! ## Sealing -/

theorem length_le_of_varintKeystream {length : Nat} {ks : List UInt8}
    (h : varintKeystream H kb nonce length = .ok ks) : length ≤ 32 * 2 ^ 32 := by
  by_contra hlong
  obtain ⟨msg, herr⟩ : ∃ msg, varintKeystreamLoop H kb nonce length [] 0 =
      .error (.overflowError msg) :=
    varintKeystreamLoop_eq_error (Nat.lt_of_not_le hlong) rfl (Nat.zero_le _)
  rw [varintKeystream, herr] at h
  cases h

/-- `encrypt_bytes` returns the ciphertext of the tokens, when the message is not too long and they
are in reach of the keystream. -/
theorem encryptBytes_eq_ok_iff {mathSqrt : Nat → Nat} (hpy : validateKey mathSqrt key = .ok ⟨⟩)
    (hkey : KeyValid key) {message : Str} {aad : List UInt8} (haad : aad.length < 2 ^ 32)
    {nonce : FixedBytes Rust.nonceSize} {c : List UInt8} :
    encryptBytes H noise mathSqrt message.codepoints key aad nonce.toList = .ok c ↔
      message.length ≤ maxPlaintextCodepoints ∧ ∃ slots,
        MessageTokensV7 H noise key message.codepoints nonce.toList slots ∧
        8 * slots.length ≤ 32 * 2 ^ 32 ∧
        c = Rust.ciphertextV7 H (Rust.keyBytes key) nonce aad slots := by
  have husable := Rust.KeyUsable.of_keyValid hkey
  have hlength : message.codepoints.length = message.length := List.length_map _
  rw [encryptBytes, encrypt, hpy, ok_bind, keyBytes_of_keyValid hkey, ok_bind]
  by_cases hlen : message.length ≤ maxPlaintextCodepoints
  · have hpadded : padMessage H message.codepoints (Rust.keyBytes key) nonce.toList .bucket =
        .ok (Rust.padded H message.codepoints (Rust.keyBytes key) nonce.toList
          (Rust.bucketBlockSize message.codepoints.length)) := by
      refine (padMessage_eq_ok_iff H _ _ message.codepoints .bucket _).mpr ⟨_, ?_, rfl⟩
      unfold Rust.PadProfile.blockSize
      have : maxPlaintextCodepoints < 1 <<< Rust.padMaxExp := by decide
      rw [if_neg (by rw [hlength]; omega)]
    rw [hpadded, ok_bind]
    have hword : ∀ {slots}, MessageTokensV7 H noise key message.codepoints nonce.toList slots →
        ∀ t ∈ slots, t < 2 ^ 64 := fun h =>
      Rust.word_of_messageTokensV7 husable message.isScalar_of_mem_codepoints h
    constructor
    · intro h
      obtain ⟨tokens, htokens, h⟩ := bind_eq_ok.mp h
      obtain ⟨slots, rfl, hemits⟩ := emits_of_emitCodepointsV7 husable (Nat.le_refl 0) htokens
      rw [ok_bind, fixedEncodeTokens_eq_ok (hword hemits), ok_bind] at h
      obtain ⟨ks, hks, h⟩ := bind_eq_ok.mp h
      have hreach := length_le_of_varintKeystream hks
      rw [varintKeystream_eq_ok H _ _ hreach] at hks
      obtain rfl := Except.ok.inj hks
      dsimp only at h
      rw [computeAuthTagV7_append haad nonce.length_toList, ok_bind] at h
      rw [length_flatMap_beBytes] at hreach
      exact ⟨hlen, _, hemits, by omega, (Except.ok.inj h).symm⟩
    · rintro ⟨-, slots, hemits, hreach, rfl⟩
      rw [emitCodepointsV7_of_emits husable hemits (Nat.le_refl 0) (by omega), ok_bind,
        List.nil_append, ok_bind, fixedEncodeTokens_eq_ok (hword hemits), ok_bind,
        varintKeystream_eq_ok H _ _ (by rw [length_flatMap_beBytes]; omega), ok_bind]
      dsimp only
      rw [computeAuthTagV7_append haad nonce.length_toList, ok_bind]
      rfl
  · refine iff_of_false (fun h => ?_) fun h => hlen h.1
    rw [padMessage] at h
    dsimp only at h
    rw [if_pos (by rw [hlength]; exact Nat.lt_of_not_le hlen)] at h
    cases h

end Napqes.Python
