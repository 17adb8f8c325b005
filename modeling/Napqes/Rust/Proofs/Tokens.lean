import Napqes.Format.Tokens
import Napqes.Rust.Tokens

/-!
# The Rust token layer computes the format

For a key that passed `validate_key` no step of the token loops panics and each loop is the
schedule of `Napqes.Format.Tokens`: one lemma for each loop, then one for each function.
-/

namespace Napqes.Rust

variable {ε : Type} (H : Hmac) {primes : List Nat} (skFmt nonce : List UInt8)

theorem keyAt_eq_ok (hkey : KeyValid primes) (i : Nat) :
    (keyAt primes i : RustM ε Nat) = .ok (keyElem primes i) := by
  simp only [keyAt, getElem?_keyElem hkey.nonempty i]

theorem deriveAddend_eq_ok (hkey : KeyValid primes) (idx : Nat) :
    (deriveAddend H skFmt nonce idx (keyElem primes idx) : RustM ε Nat) =
      .ok (realAddend H primes skFmt nonce idx) :=
  addendOf_eq_ok _ (by have := keyElem_range hkey idx; omega)

theorem noiseToken_eq_ok (hkey : KeyValid primes) (idx pos : Nat) :
    (noiseToken H skFmt nonce pos (keyElem primes idx) : RustM ε Nat) =
      .ok (fillerToken H primes skFmt nonce idx pos) := by
  have haddend : (deriveNoiseTokenAddend H skFmt nonce pos (keyElem primes idx) : RustM ε Nat) =
      .ok (addendVal (H skFmt (noiseAddendInput nonce pos)).toList (keyElem primes idx)) :=
    addendOf_eq_ok _ (by have := keyElem_range hkey idx; omega)
  have hlt := fillerToken_lt H skFmt nonce hkey idx pos
  rw [noiseToken, haddend, ok_bind]
  exact u64_of_lt (Nat.lt_trans hlt (by decide))

theorem u64_realToken (hkey : KeyValid primes) (idx : Nat) {c : Nat} (hc : c < 2 ^ 32) :
    (u64 (c * keyElem primes idx + realAddend H primes skFmt nonce idx) : RustM ε Nat) =
      .ok (realToken H primes skFmt nonce idx c) :=
  u64_of_lt (Nat.lt_trans (realToken_lt H skFmt nonce hkey idx hc) (by decide))

/-! ## Emission -/

/-- The loop for one codepoint emits the noise run and then the real token. -/
theorem emitCodepointV8_eq_ok (hkey : KeyValid primes) {c : Nat} (hc : c < 2 ^ 32) (idx : Nat)
    (noiseRun pos : Nat) (cypher : List Nat) :
    (emitCodepointV8 H primes skFmt nonce (deriveNoiseThresholdV8 H skFmt nonce) c idx
      noiseRun pos cypher : RustM ε (List Nat × Nat)) =
      let len := Schedule.run (noiseAt H skFmt nonce) (maxNoiseRun - noiseRun) pos
      .ok (cypher ++ ((List.range' pos len).map (fillerToken H primes skFmt nonce idx) ++
        [realToken H primes skFmt nonce idx c]), pos + len + 1) := by
  induction hcap : maxNoiseRun - noiseRun generalizing noiseRun pos cypher with
  | zero =>
      rw [emitCodepointV8, keyAt_eq_ok hkey, ok_bind, dif_neg (by omega),
        deriveAddend_eq_ok H skFmt nonce hkey, ok_bind, u64_realToken H skFmt nonce hkey idx hc]
      simp [Schedule.run, pure, Except.pure]
  | succ cap ih =>
      rw [emitCodepointV8, keyAt_eq_ok hkey, ok_bind]
      by_cases hnoise : noiseAt H skFmt nonce pos = true
      · rw [dif_pos ⟨by omega, hnoise⟩, noiseToken_eq_ok H skFmt nonce hkey, ok_bind,
          ih (noiseRun + 1) (pos + 1) _ (by omega)]
        simp only [Schedule.run, if_pos hnoise, List.range'_succ, List.map_cons,
          List.append_assoc, List.cons_append, List.nil_append, Except.ok.injEq,
          Prod.mk.injEq, true_and]
        omega
      · rw [dif_neg (fun h => hnoise h.2), deriveAddend_eq_ok H skFmt nonce hkey, ok_bind,
          u64_realToken H skFmt nonce hkey idx hc]
        simp [Schedule.run, hnoise, pure, Except.pure]

/-- The loop over the padded codepoints is the schedule's emission. -/
theorem emitCodepointsV8_eq_ok (hkey : KeyValid primes) {cps : List Nat}
    (hcps : ∀ c ∈ cps, c < 2 ^ 32) (idx pos : Nat) (cypher : List Nat) :
    (emitCodepointsV8 H primes skFmt nonce (deriveNoiseThresholdV8 H skFmt nonce) cps idx pos
      cypher : RustM ε _) =
      let slots := Schedule.emit (noiseAt H skFmt nonce) noiseCap
        (realToken H primes skFmt nonce) (fillerToken H primes skFmt nonce) idx pos cps
      .ok (cypher ++ slots, idx + cps.length, pos + slots.length) := by
  induction cps generalizing idx pos cypher with
  | nil => simp [emitCodepointsV8, Schedule.emit, pure, Except.pure]
  | cons c cps ih =>
      have hc : c < 2 ^ 32 := hcps c (by simp)
      rw [emitCodepointsV8, emitCodepointV8_eq_ok H skFmt nonce hkey hc]
      simp only [ok_bind]
      rw [ih fun d hd => hcps d (by simp [hd])]
      simp only [Schedule.emit, maxNoiseRun, noiseCap, Nat.sub_zero, List.append_assoc,
        List.cons_append, List.nil_append, List.length_append, List.length_map,
        List.length_range', List.length_cons, Except.ok.injEq, Prod.mk.injEq, true_and]
      omega

/-- The top-up loop appends noise up to the ceiling. -/
theorem topUpV8_eq_ok (hkey : KeyValid primes) (ceiling idx pos : Nat) (cypher : List Nat) :
    (topUpV8 H primes skFmt nonce ceiling idx pos cypher : RustM ε (List Nat)) =
      .ok (cypher ++ (List.range' pos (ceiling - cypher.length)).map
        (fillerToken H primes skFmt nonce idx)) := by
  induction hrest : ceiling - cypher.length generalizing pos cypher with
  | zero =>
      rw [topUpV8, if_neg (by omega)]
      simp
  | succ rest ih =>
      rw [topUpV8, if_pos (by omega), keyAt_eq_ok hkey, ok_bind,
        noiseToken_eq_ok H skFmt nonce hkey, ok_bind, ih _ _ (by simp; omega)]
      simp [List.range'_succ]

/-- `emit_tokens_v8` never panics on a valid key and emits the tokens of the format. -/
theorem emitTokensV8_eq_ok (hkey : KeyValid primes) {cps : List Nat}
    (hcps : ∀ c ∈ cps, c < 2 ^ 32) :
    (emitTokensV8 H cps primes skFmt nonce : RustM ε (List Nat)) =
      .ok (tokensOf H primes skFmt nonce cps) := by
  rw [emitTokensV8, emitCodepointsV8_eq_ok H skFmt nonce hkey hcps]
  simp only [ok_bind, List.nil_append, Nat.zero_add]
  rw [topUpV8_eq_ok H skFmt nonce hkey]
  rfl

/-! ## Decoding -/

/-- The skipping loop stops at the end of the noise run or of the tokens. -/
theorem skipNoiseV8_snd (nTokens noiseRun pos : Nat) (hpos : pos ≤ nTokens) :
    (skipNoiseV8 H skFmt nonce (deriveNoiseThresholdV8 H skFmt nonce) nTokens noiseRun pos).2 =
      min (pos + Schedule.run (noiseAt H skFmt nonce) (maxNoiseRun - noiseRun) pos) nTokens := by
  induction hcap : maxNoiseRun - noiseRun generalizing noiseRun pos with
  | zero =>
      rw [skipNoiseV8, if_neg (by omega)]
      simp [Schedule.run, hpos]
  | succ cap ih =>
      rw [skipNoiseV8]
      by_cases hend : pos < nTokens
      · rw [Schedule.min_run_eq _ hend]
        by_cases hnoise : noiseAt H skFmt nonce pos = true
        · rw [if_pos ⟨by omega, hend, hnoise⟩, if_pos hnoise, ih _ _ hend (by omega)]
        · rw [if_neg (fun h => hnoise h.2.2), if_neg hnoise]
      · rw [if_neg (by omega)]
        show pos = _
        omega

/-- The decoding loop succeeds exactly when the schedule's replay does, with its result. -/
theorem readTokensV8_eq_ok_iff (errors : TokenErrors) (hkey : KeyValid primes)
    (tokens : List Nat) (n idx pos : Nat) (acc : List Nat) (hpos : pos ≤ tokens.length)
    (out : List Nat) :
    readTokensV8 H errors primes skFmt nonce (deriveNoiseThresholdV8 H skFmt nonce) tokens
      (idx + n) idx pos acc = .ok out ↔
      ∃ xs, Schedule.decode (noiseAt H skFmt nonce) noiseCap (recoverToken H primes skFmt nonce)
        tokens n idx pos = some xs ∧ out = acc ++ xs := by
  induction n generalizing idx pos acc with
  | zero =>
      rw [readTokensV8, if_neg (by omega)]
      simp [Schedule.decode, eq_comm]
  | succ n ih =>
      have hscan := skipNoiseV8_snd H skFmt nonce tokens.length 0 pos hpos
      rw [readTokensV8, if_pos (by omega)]
      simp only [Schedule.decode, Option.bind_eq_bind, Option.bind_eq_some_iff, Option.pure_def,
        Option.some.injEq]
      by_cases hlt : pos + Schedule.run (noiseAt H skFmt nonce) noiseCap pos < tokens.length
      · have hat : (skipNoiseV8 H skFmt nonce (deriveNoiseThresholdV8 H skFmt nonce)
            tokens.length 0 pos).2 = pos + Schedule.run (noiseAt H skFmt nonce) noiseCap pos := by
          rw [hscan]
          exact Nat.min_eq_left (Nat.le_of_lt hlt)
        rw [dif_pos (by rw [hat]; exact hlt), keyAt_eq_ok hkey, ok_bind,
          deriveAddend_eq_ok H skFmt nonce hkey, ok_bind]
        simp only [hat, List.getElem?_eq_getElem hlt, Option.some.injEq, exists_eq_left',
          recoverToken_eq]
        split
        case isTrue => simp [err]
        case isFalse =>
          split
          case isTrue =>
            have hnext := ih (idx + 1) (pos + Schedule.run (noiseAt H skFmt nonce) noiseCap pos + 1)
              (acc ++ [(tokens[pos + Schedule.run (noiseAt H skFmt nonce) noiseCap pos] -
                realAddend H primes skFmt nonce idx) / keyElem primes idx]) hlt
            rw [show idx + (n + 1) = idx + 1 + n by omega, hnext]
            constructor
            · rintro ⟨xs, hxs, rfl⟩
              exact ⟨_, ⟨_, rfl, xs, hxs, rfl⟩, by simp⟩
            · rintro ⟨_, ⟨x, hx, xs, hxs, rfl⟩, rfl⟩
              cases hx
              exact ⟨xs, hxs, by simp⟩
          case isFalse => simp [err]
      · have hend : ¬ (skipNoiseV8 H skFmt nonce (deriveNoiseThresholdV8 H skFmt nonce)
            tokens.length 0 pos).2 < tokens.length := by
          rw [hscan]
          exact fun h => hlt (by simpa [maxNoiseRun] using h)
        rw [dif_neg hend, List.getElem?_eq_none (Nat.le_of_not_lt hlt)]
        simp [err]

/-- `decrypt_v8_stream_chunk_core` reads the codepoints the format defines. -/
theorem decryptV8StreamChunkCore_eq_ok_iff (hkey : KeyValid primes) (tokens : List Nat)
    (f : Nat) (out : List Nat) :
    decryptV8StreamChunkCore H tokens primes skFmt nonce f = .ok out ↔
      readTokens H primes skFmt nonce tokens f = some out := by
  have h := readTokensV8_eq_ok_iff H skFmt nonce chunkTokenErrors hkey tokens f 0 0 []
    (Nat.zero_le _) out
  rw [Nat.zero_add] at h
  rw [decryptV8StreamChunkCore, h]
  simp [readTokens]

/-- `decrypt_core_v8` reads `B + 2` codepoints for a reachable `B` and unpads them. -/
theorem decryptCoreV8_eq_ok_iff (hkey : KeyValid primes) (tokens out : List Nat) :
    decryptCoreV8 H nonce tokens primes skFmt = .ok out ↔
      ∃ b, ReachableBlock b ∧ tokens.length = (b + 2) * 20 ∧
        ∃ cps, readTokens H primes skFmt nonce tokens (b + 2) = some cps ∧
          unpadMessage cps = .ok out := by
  rw [decryptCoreV8]
  by_cases hmod : tokens.length % 20 = 0
  · have hlegal := reachableBlock_iff (w := 64) (tokens.length / 20 - 2) (by decide)
    have hunit : ¬ tokens.length % (maxNoiseRun + 1) ≠ 0 := fun h => h hmod
    rw [if_neg hunit]
    by_cases h : 2 ≤ tokens.length / 20 ∧ ReachableBlock (tokens.length / 20 - 2)
    · obtain ⟨htwo, hblock⟩ := h
      have hread := readTokensV8_eq_ok_iff H skFmt nonce blockTokenErrors hkey tokens
        (tokens.length / (maxNoiseRun + 1)) 0 0 [] (Nat.zero_le _)
      rw [Nat.zero_add] at hread
      refine (iff_of_eq (congrArg (· = Except.ok out)
        (if_pos ⟨htwo, hlegal.mpr hblock⟩))).trans ?_
      simp only [bind_eq_ok, hread, List.nil_append, exists_eq_right']
      constructor
      · rintro ⟨cps, hcps, hout⟩
        refine ⟨_, hblock, by omega, cps, ?_, hout⟩
        rw [show tokens.length / 20 - 2 + 2 = tokens.length / 20 by omega]
        exact hcps
      · rintro ⟨b, -, hb, cps, hcps, hout⟩
        refine ⟨cps, ?_, hout⟩
        rw [show tokens.length / (maxNoiseRun + 1) = b + 2 by
          show tokens.length / 20 = b + 2
          omega]
        exact hcps
    · refine (iff_of_eq (congrArg (· = Except.ok out)
        (if_neg fun hif => h ⟨hif.1, hlegal.mp hif.2⟩))).trans ?_
      simp only [err, reduceCtorEq, false_iff]
      rintro ⟨b, hb, hlen, -⟩
      apply h
      rw [show tokens.length / 20 - 2 = b by omega]
      exact ⟨by omega, hb⟩
  · have hunit : tokens.length % (maxNoiseRun + 1) ≠ 0 := hmod
    rw [if_pos hunit]
    simp only [err, reduceCtorEq, false_iff]
    rintro ⟨b, -, hb, -⟩
    omega

/-! ## Fields and keystream -/

theorem fixedDecodeTokens_eq_ok_iff (data : List UInt8) (tokens : List Nat) :
    fixedDecodeTokens data = .ok tokens ↔
      data.length % 8 = 0 ∧ tokens = (chunksExact 8 (data.length / 8) data).map beNat := by
  by_cases h : data.length % 8 = 0
  · simp [fixedDecodeTokens, tokenWidth, h, eq_comm]
  · simp [fixedDecodeTokens, tokenWidth, h, err]

/-- With all blocks so far in `out`, the loop completes the counter stream. -/
theorem varintKeystreamLoop_eq_ok (len : Nat) (hlen : len ≤ 32 * (2 ^ 32 - 1)) (block : Nat)
    (hblock : block ≤ (len + 31) / 32) :
    (varintKeystreamLoop H skFmt nonce len
      ((List.range block).flatMap fun i => (H skFmt (keystreamInput nonce i)).toList) block :
        RustM ε (List UInt8)) = .ok (keystream H skFmt nonce len) := by
  induction hrest : (len + 31) / 32 - block generalizing block with
  | zero =>
      have hall : block = (len + 32 - 1) / 32 := by omega
      rw [varintKeystreamLoop, dif_neg]
      · rw [hall]
        rfl
      · rw [length_flatMap_blocks, List.length_range]
        omega
  | succ rest ih =>
      rw [varintKeystreamLoop, dif_pos, if_pos (by omega)]
      · rw [← ih (block + 1) (by omega) (by omega), List.range_succ, List.flatMap_append]
        simp
      · rw [length_flatMap_blocks, List.length_range]
        omega

/-- The loop returns only if its block counter never reached `2^32`. -/
theorem le_of_varintKeystreamLoop_eq_ok (len : Nat) (out : List UInt8) (block : Nat)
    (hout : out.length = 32 * block) (hblock : block < 2 ^ 32) {ks : List UInt8}
    (h : (varintKeystreamLoop H skFmt nonce len out block : RustM ε (List UInt8)) = .ok ks) :
    len ≤ 32 * (2 ^ 32 - 1) := by
  induction hrest : len - out.length using Nat.strong_induction_on generalizing out block with
  | _ rest ih =>
      rw [varintKeystreamLoop] at h
      split at h
      case isTrue hlt =>
        split at h
        case isTrue hnext =>
          refine ih _ ?_ _ _ ?_ hnext h rfl
          · simp
            omega
          · simp
            omega
        case isFalse => simp [panics] at h
      case isFalse hge => omega

theorem le_of_varintKeystream_eq_ok {len : Nat} {ks : List UInt8}
    (h : (varintKeystream H skFmt nonce len : RustM ε (List UInt8)) = .ok ks) :
    len ≤ 32 * (2 ^ 32 - 1) :=
  le_of_varintKeystreamLoop_eq_ok H skFmt nonce len [] 0 rfl (by decide) h

/-- `varint_keystream` is the counter stream while its `u32` block counter does not wrap. -/
theorem varintKeystream_eq_ok {len : Nat} (hlen : len ≤ 32 * (2 ^ 32 - 1)) :
    (varintKeystream H skFmt nonce len : RustM ε (List UInt8)) =
      .ok (keystream H skFmt nonce len) :=
  varintKeystreamLoop_eq_ok H skFmt nonce len hlen 0 (Nat.zero_le _)

end Napqes.Rust
