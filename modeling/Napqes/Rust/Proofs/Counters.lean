import Napqes.Rust.Counters
import Napqes.Rust.Proofs.BlockV7

/-!
# Tokens, positions and counters stay within their words

With every assertion, cast and counter checked the emission loops compute what they compute
without: the positions of an emission are bounded by its length, and that by the number of
codepoints and the longest noise run.
-/

namespace Napqes.Rust

variable {ε : Type} {H : Hmac} {noise : Noise} {primes key : List Nat} {kb nonce : List UInt8}

/-! ## Derivations -/

theorem be5Checked_of_lt {n : Nat} (h : n < 2 ^ 40) : (be5Checked n : RustM ε _) = .ok (be5 n) :=
  if_pos h

theorem isNoisePosV8Checked_eq {pos : Nat} (h : pos < 2 ^ 40) (theta : Nat) :
    (isNoisePosV8Checked H kb nonce pos theta : RustM ε Bool) =
      .ok (isNoisePosV8 H kb nonce pos theta) := by
  rw [isNoisePosV8Checked, be5Checked_of_lt h, ok_bind]
  rfl

theorem addendOfChecked_eq (caller : String) (digest : List UInt8) {k : Nat} (hk : 2 ≤ k) :
    (addendOfChecked caller digest k : RustM ε Nat) = addendOf digest k := if_pos hk

theorem noiseTokenChecked_eq {pos k : Nat} (h : pos < 2 ^ 40) (hk : 2 ≤ k) :
    (noiseTokenChecked H kb nonce pos k : RustM ε Nat) = noiseToken H kb nonce pos k := by
  rw [noiseTokenChecked, deriveNoiseCharChecked, be5Checked_of_lt h, ok_bind,
    deriveNoiseTokenAddendChecked, be5Checked_of_lt h, ok_bind, addendOfChecked_eq _ _ hk]
  rfl

theorem realTokenChecked_eq {c idx k : Nat} (h : idx < 2 ^ 40) (hk : 2 ≤ k) :
    (realTokenChecked H kb nonce c idx k : RustM ε Nat) =
      (deriveAddend H kb nonce idx k : RustM ε Nat) >>= fun addend => u64 (c * k + addend) := by
  rw [realTokenChecked, deriveAddendChecked, be5Checked_of_lt h, ok_bind,
    addendOfChecked_eq _ _ hk]
  rfl

/-! ## Bounds -/

/-- A threshold is at least `THETA_MIN` and below `THETA_MAX`. -/
theorem deriveNoiseThresholdV8_range (H : Hmac) (kb nonce : List UInt8) :
    thetaMin ≤ deriveNoiseThresholdV8 H kb nonce ∧
      deriveNoiseThresholdV8 H kb nonce < thetaMax := by
  have htau := u64FromBe8_lt (H kb (thresholdInput nonce)).toList
  have hspan : thetaMin < thetaMax := by decide
  have hshift : (u64FromBe8 (H kb (thresholdInput nonce)).toList * (thetaMax - thetaMin)) >>> 64 <
      thetaMax - thetaMin := by
    rw [Nat.shiftRight_eq_div_pow, Nat.div_lt_iff_lt_mul (by decide), Nat.mul_comm]
    exact Nat.mul_lt_mul_of_pos_left htau (by omega)
  simp only [deriveNoiseThresholdV8]
  omega

/-- A scalar value times a key element, plus the addend, stays below `2^44`. -/
theorem affine_lt_scalar {c k a : Nat} (hc : c ≤ 0x10FFFF) (hk : k ≤ 14999999) (ha : a < k) :
    c * k + a < 2 ^ 44 := by
  calc c * k + a < c * k + k := Nat.add_lt_add_left ha _
    _ = (c + 1) * k := (Nat.succ_mul c k).symm
    _ ≤ (0x10FFFF + 1) * 14999999 := Nat.mul_le_mul (Nat.succ_le_succ hc) hk
    _ < 2 ^ 44 := by decide

theorem tokensOf_lt_scalar (hkey : KeyValid primes) {cps : List Nat}
    (hcps : ∀ c ∈ cps, IsScalar c) : ∀ t ∈ tokensOf H primes kb nonce cps, t < 2 ^ 44 := by
  apply Schedule.forall_mem_emitAll
  · intro idx pos
    have hrange := keyElem_range hkey idx
    have hchar := deriveNoiseChar_lt H kb nonce pos
    exact affine_lt_scalar (by omega) hrange.2 (addendVal_lt _ (by omega))
  · intro idx c hc
    exact affine_lt_scalar (hcps c hc).1 (keyElem_range hkey idx).2
      (realAddend_lt H kb nonce hkey idx)

/-! ## v8 emission -/

theorem emitCodepointV8Checked_eq_ok (hkey : KeyValid primes) {c : Nat} (hc : c < 2 ^ 32)
    {idx : Nat} (hidx : idx < 2 ^ 40) (noiseRun pos : Nat)
    (hpos : pos + (maxNoiseRun - noiseRun) < 2 ^ 40) (cypher : List Nat) :
    (emitCodepointV8Checked H primes kb nonce (deriveNoiseThresholdV8 H kb nonce) c idx noiseRun
      pos cypher : RustM ε (List Nat × Nat × Nat)) =
      let len := Schedule.run (noiseAt H kb nonce) (maxNoiseRun - noiseRun) pos
      .ok (cypher ++ ((List.range' pos len).map (fillerToken H primes kb nonce idx) ++
        [realToken H primes kb nonce idx c]), idx + 1, pos + len + 1) := by
  have hk : 2 ≤ keyElem primes idx := by
    have := keyElem_range hkey idx
    omega
  have hreal : (realTokenChecked H kb nonce c idx (keyElem primes idx) : RustM ε Nat) =
      .ok (realToken H primes kb nonce idx c) := by
    rw [realTokenChecked_eq hidx hk, deriveAddend_eq_ok H kb nonce hkey, ok_bind,
      u64_realToken H kb nonce hkey idx hc]
  have hword : ∀ {n : Nat}, n < 2 ^ 40 → (u64 (n + 1) : RustM ε Nat) = .ok (n + 1) := by
    intro n hn
    exact u64_of_lt (by omega)
  induction hcap : maxNoiseRun - noiseRun generalizing noiseRun pos cypher with
  | zero =>
      rw [emitCodepointV8Checked, keyAt_eq_ok hkey, ok_bind, if_neg (by omega)]
      simp only [pure_bind, Bool.false_eq_true, and_false, dite_false, hreal, ok_bind,
        hword (show pos < 2 ^ 40 by omega), hword hidx]
      simp [Schedule.run, pure, Except.pure]
  | succ cap ih =>
      rw [emitCodepointV8Checked, keyAt_eq_ok hkey, ok_bind, if_pos (by omega),
        isNoisePosV8Checked_eq (by omega), ok_bind]
      by_cases hnoise : noiseAt H kb nonce pos = true
      · rw [dif_pos ⟨by omega, hnoise⟩, noiseTokenChecked_eq (by omega) hk,
          noiseToken_eq_ok H kb nonce hkey, ok_bind, hword (by omega), ok_bind,
          ih (noiseRun + 1) (pos + 1) (by omega) _ (by omega)]
        simp only [Schedule.run, if_pos hnoise, List.range'_succ, List.map_cons,
          List.append_assoc, List.cons_append, List.nil_append, Except.ok.injEq,
          Prod.mk.injEq, true_and]
        omega
      · rw [dif_neg (fun h => hnoise h.2), hreal, ok_bind, hword (by omega), ok_bind, hword hidx]
        simp [Schedule.run, hnoise, pure, Except.pure]

theorem emitCodepointsV8Checked_eq_ok (hkey : KeyValid primes) {cps : List Nat}
    (hcps : ∀ c ∈ cps, c < 2 ^ 32) (idx pos : Nat) (hidx : idx + cps.length ≤ 2 ^ 40)
    (hpos : pos + cps.length * 20 ≤ 2 ^ 40) (cypher : List Nat) :
    (emitCodepointsV8Checked H primes kb nonce (deriveNoiseThresholdV8 H kb nonce) cps idx pos
      cypher : RustM ε _) =
      let slots := Schedule.emit (noiseAt H kb nonce) noiseCap
        (realToken H primes kb nonce) (fillerToken H primes kb nonce) idx pos cps
      .ok (cypher ++ slots, idx + cps.length, pos + slots.length) := by
  induction cps generalizing idx pos cypher with
  | nil => simp [emitCodepointsV8Checked, Schedule.emit, pure, Except.pure]
  | cons c cps ih =>
      rw [List.length_cons] at hidx hpos
      have hrun := Schedule.run_le (noiseAt H kb nonce) noiseCap pos
      rw [emitCodepointsV8Checked, emitCodepointV8Checked_eq_ok hkey (hcps c (by simp)) (by omega) 0
        pos (by simp only [maxNoiseRun]; omega)]
      simp only [ok_bind]
      rw [ih (fun d hd => hcps d (by simp [hd])) _ _ (by omega)
        (by simp only [maxNoiseRun, noiseCap, Nat.sub_zero] at hrun ⊢; omega)]
      simp only [Schedule.emit, maxNoiseRun, noiseCap, Nat.sub_zero, List.append_assoc,
        List.cons_append, List.nil_append, List.length_append, List.length_map,
        List.length_range', List.length_cons, Except.ok.injEq, Prod.mk.injEq, true_and]
      omega

theorem topUpV8Checked_eq_ok (hkey : KeyValid primes) (ceiling idx pos : Nat) (cypher : List Nat)
    (hpos : pos + (ceiling - cypher.length) ≤ 2 ^ 40) :
    (topUpV8Checked H primes kb nonce ceiling idx pos cypher : RustM ε (List Nat)) =
      .ok (cypher ++ (List.range' pos (ceiling - cypher.length)).map
        (fillerToken H primes kb nonce idx)) := by
  have hk : 2 ≤ keyElem primes idx := by
    have := keyElem_range hkey idx
    omega
  induction hrest : ceiling - cypher.length generalizing pos cypher with
  | zero =>
      rw [topUpV8Checked, if_neg (by omega)]
      simp
  | succ rest ih =>
      rw [topUpV8Checked, if_pos (by omega), keyAt_eq_ok hkey, ok_bind,
        noiseTokenChecked_eq (by omega) hk, noiseToken_eq_ok H kb nonce hkey, ok_bind,
        u64_of_lt (by omega), ok_bind, ih _ _ (by simp; omega) (by simp; omega)]
      simp [List.range'_succ]

/-- The checked emission of a list whose tokens are fewer than `2^40`. -/
theorem emitTokensV8Checked_eq_ok (hkey : KeyValid primes) {cps : List Nat}
    (hcps : ∀ c ∈ cps, c < 2 ^ 32) (hlen : cps.length * 20 ≤ 2 ^ 40) :
    (emitTokensV8Checked H cps primes kb nonce : RustM ε (List Nat)) =
      .ok (tokensOf H primes kb nonce cps) := by
  have hslots := Schedule.length_emit_le (noiseAt H kb nonce) noiseCap
    (realToken H primes kb nonce) (fillerToken H primes kb nonce) 0 0 cps
  have hceiling : (u64 (cps.length * (maxNoiseRun + 1)) : RustM ε Nat) =
      .ok (cps.length * (maxNoiseRun + 1)) := u64_of_lt (by simp only [maxNoiseRun]; omega)
  rw [emitTokensV8Checked, hceiling, ok_bind,
    emitCodepointsV8Checked_eq_ok hkey hcps 0 0 (by omega) (by omega)]
  simp only [ok_bind, List.nil_append, Nat.zero_add]
  rw [topUpV8Checked_eq_ok hkey _ _ _ _ (by simp only [maxNoiseRun, noiseCap] at hslots ⊢; omega)]
  rfl

/-! ## Padding -/

theorem padCharsChecked_eq_ok {is : List Nat} (h : ∀ i ∈ is, i < 2 ^ 32) :
    (padCharsChecked H kb nonce is : RustM ε (List Nat)) =
      .ok (is.map (derivePadChar H kb nonce)) := by
  induction is with
  | nil => rfl
  | cons i is ih =>
      have hcast : (castU32 i : RustM ε Nat) = .ok i := if_pos (h i List.mem_cons_self)
      rw [padCharsChecked, hcast, ok_bind, ih fun j hj => h j (List.mem_cons_of_mem i hj)]
      rfl

theorem padCharsChecked_range {n : Nat} (h : n ≤ 2 ^ 32) :
    (padCharsChecked H kb nonce (List.range n) : RustM ε (List Nat)) =
      .ok ((List.range n).map (derivePadChar H kb nonce)) := by
  apply padCharsChecked_eq_ok
  intro i hi
  exact Nat.lt_of_lt_of_le (List.mem_range.mp hi) h

theorem padToBlockChecked_eq_ok {msg : List Nat} {b : Nat} (hb : ReachableBlock b)
    (h : msg.length < b) :
    (padToBlockChecked H msg kb nonce b : RustM ε (List Nat)) =
      .ok (padded H msg kb nonce b) := by
  have hle := hb.le
  rw [padToBlockChecked]
  simp only [if_pos h]
  rw [padCharsChecked_range (by omega)]
  rfl

/-! ## v7 emission -/

theorem isNoisePosChecked_eq {pos : Nat} (h : pos < 2 ^ 40) :
    (isNoisePosChecked noise kb nonce pos : RustM ε Bool) = .ok (noise kb nonce pos) := by
  rw [isNoisePosChecked, be5Checked_of_lt h, ok_bind]
  rfl

/-- Within the guard the checked loop for a codepoint is the plain one. -/
theorem emitCodepointV7Checked_eq (hkey : KeyUsable key) {c : Nat} (hc : IsScalar c) {idx : Nat}
    (hidx : idx < 2 ^ 40) (run pos : Nat) (hpos : pos + (v7NoiseRunGuard - run) < 2 ^ 40)
    (cypher : List Nat) :
    emitCodepointV7Checked H noise key kb nonce c idx run pos cypher =
      emitCodepointV7 H noise key kb nonce c idx run pos cypher >>= fun out =>
        .ok (out.1, idx + 1, out.2) := by
  have hk := (hkey.keyElem_range idx).1
  have hword : ∀ {n : Nat}, n < 2 ^ 40 → (u64 (n + 1) : RustM String Nat) = .ok (n + 1) := by
    intro n hn
    exact u64_of_lt (by omega)
  induction hleft : v7NoiseRunGuard - run generalizing run pos cypher with
  | zero =>
      rw [emitCodepointV7Checked, keyAt_of_ne_nil hkey.nonempty, ok_bind,
        isNoisePosChecked_eq (by omega), ok_bind, emitCodepointV7_eq hkey hc]
      by_cases hnoise : noise kb nonce pos = true
      · rw [if_pos hnoise, if_pos hnoise, noiseTokenChecked_eq (by omega) hk, hkey.noiseToken_eq,
          ok_bind, hword (by omega), ok_bind, dif_pos (by omega), if_pos (by omega)]
        rfl
      · rw [if_neg hnoise, if_neg hnoise, realTokenChecked_eq hidx hk, hkey.deriveAddend_eq,
          ok_bind, hkey.u64_realToken idx hc, ok_bind, hword (by omega), ok_bind, hword hidx]
        rfl
  | succ left ih =>
      rw [emitCodepointV7Checked, keyAt_of_ne_nil hkey.nonempty, ok_bind,
        isNoisePosChecked_eq (by omega), ok_bind, emitCodepointV7_eq hkey hc]
      by_cases hnoise : noise kb nonce pos = true
      · rw [if_pos hnoise, if_pos hnoise, noiseTokenChecked_eq (by omega) hk, hkey.noiseToken_eq,
          ok_bind, hword (by omega), ok_bind, dif_neg (by omega), if_neg (by omega)]
        exact ih (run + 1) (pos + 1) (by omega) _ (by omega)
      · rw [if_neg hnoise, if_neg hnoise, realTokenChecked_eq hidx hk, hkey.deriveAddend_eq,
          ok_bind, hkey.u64_realToken idx hc, ok_bind, hword (by omega), ok_bind, hword hidx]
        rfl

theorem emitCodepointsV7Checked_eq (hkey : KeyUsable key) {cps : List Nat}
    (hcps : ∀ c ∈ cps, IsScalar c) (idx pos : Nat) (hidx : idx + cps.length ≤ 2 ^ 40)
    (hpos : pos + cps.length * (v7NoiseRunGuard + 1) ≤ 2 ^ 40) (cypher : List Nat) :
    emitCodepointsV7Checked H noise key kb nonce cps idx pos cypher =
      emitCodepointsV7 H noise key kb nonce cps idx pos cypher := by
  induction cps generalizing idx pos cypher with
  | nil => rfl
  | cons c cps ih =>
      rw [List.length_cons] at hidx hpos
      rw [Nat.add_mul] at hpos
      have hc := hcps c List.mem_cons_self
      rw [emitCodepointsV7Checked, emitCodepointsV7,
        emitCodepointV7Checked_eq hkey hc (by omega) 0 pos (by omega)]
      cases hfirst : emitCodepointV7 H noise key kb nonce c idx 0 pos cypher with
      | error e => rfl
      | ok out =>
          obtain ⟨slots, rfl, hlen, -, -⟩ :=
            placed_of_emitCodepointV7 hkey hc hfirst (Nat.zero_le _)
          simp only [ok_bind]
          apply ih fun d hd => hcps d (List.mem_cons_of_mem c hd)
          · omega
          · omega

theorem emitTokensV7Checked_eq (hkey : KeyUsable key) {cps : List Nat}
    (hcps : ∀ c ∈ cps, IsScalar c) (hlen : cps.length * (v7NoiseRunGuard + 1) ≤ 2 ^ 40) :
    emitTokensV7Checked H noise cps kb nonce key = emitTokensV7 H noise cps kb nonce key :=
  emitCodepointsV7Checked_eq hkey hcps 0 0 (by simp only [v7NoiseRunGuard] at hlen; omega)
    (by omega) []

theorem returns_emitCodepointV7 (hkey : KeyUsable key) {c : Nat} (hc : IsScalar c)
    (idx run pos : Nat) (cypher : List Nat) :
    Returns (emitCodepointV7 H noise key kb nonce c idx run pos cypher) := by
  induction hleft : v7NoiseRunGuard - run generalizing run pos cypher with
  | zero =>
      rw [emitCodepointV7_eq hkey hc]
      by_cases hnoise : noise kb nonce pos = true
      · rw [if_pos hnoise, if_pos (by omega)]
        exact .err _
      · rw [if_neg hnoise]
        exact .ok _
  | succ left ih =>
      rw [emitCodepointV7_eq hkey hc]
      by_cases hnoise : noise kb nonce pos = true
      · rw [if_pos hnoise, if_neg (by omega)]
        exact ih (run + 1) (pos + 1) _ (by omega)
      · rw [if_neg hnoise]
        exact .ok _

/-- `emit_tokens_v7` returns its tokens or the error of the guard. -/
theorem returns_emitCodepointsV7 (hkey : KeyUsable key) {cps : List Nat}
    (hcps : ∀ c ∈ cps, IsScalar c) (idx pos : Nat) (cypher : List Nat) :
    Returns (emitCodepointsV7 H noise key kb nonce cps idx pos cypher) := by
  induction cps generalizing idx pos cypher with
  | nil => exact .ok _
  | cons c cps ih =>
      rw [emitCodepointsV7]
      apply (returns_emitCodepointV7 hkey (hcps c List.mem_cons_self) idx 0 pos cypher).bind
      intro out _
      exact ih (fun d hd => hcps d (List.mem_cons_of_mem c hd)) _ _ _

/-! ## Messages and frames -/

/-- The tokens of `cps` are emitted and masked with no assertion failed and no counter wrapped. -/
def Fits (H : Hmac) (primes : List Nat) (kb nonce : List UInt8) (cps : List Nat) : Prop :=
  ∃ tokens ks, (emitTokensV8Checked H cps primes kb nonce : RustM Empty _) = .ok tokens ∧
    (emitTokensV8 H cps primes kb nonce : RustM Empty _) = .ok tokens ∧
    (varintKeystream H kb nonce (fixedEncodeTokens tokens).length : RustM Empty _) = .ok ks

/-- A padded block, and a frame, are far below what the counters reach. -/
theorem fits_of_length_le (hkey : KeyValid primes) {cps : List Nat} (hcps : ∀ c ∈ cps, IsScalar c)
    (hlen : cps.length ≤ 65538) : Fits H primes kb nonce cps := by
  have hwords : ∀ c ∈ cps, c < 2 ^ 32 := fun c hc => (hcps c hc).lt
  refine ⟨tokensOf H primes kb nonce cps, _, emitTokensV8Checked_eq_ok hkey hwords (by omega),
    emitTokensV8_eq_ok H kb nonce hkey hwords, varintKeystream_eq_ok H kb nonce ?_⟩
  rw [fixedEncodeTokens, length_flatMap_beBytes, length_tokensOf, tokenWidth]
  omega

/-- The token and counter arithmetic of both formats stays within its words. -/
theorem token_arithmetic_fits (H : Hmac) (noise : Noise) :
    (∀ kb nonce, thetaMin ≤ deriveNoiseThresholdV8 H kb nonce ∧
      deriveNoiseThresholdV8 H kb nonce < thetaMax) ∧
    (∀ primes, validateKey primes = .ok ⟨⟩ → ∀ kb nonce,
      (∀ cps tokens, (∀ c ∈ cps, IsScalar c) →
        (emitTokensV8 H cps primes kb nonce : RustM Empty _) = .ok tokens →
        ∀ t ∈ tokens, t < 2 ^ 44) ∧
      (∀ (profile : PadProfile) (msg : List Nat) (b : Nat), (∀ c ∈ msg, IsScalar c) →
        msg.length ≤ maxPlaintextCodepoints → profile.blockSize msg.length = .ok b →
        ∃ padded, (padToBlockChecked H msg kb nonce b : RustM Empty _) = .ok padded ∧
          (padToBlock H msg kb nonce b : RustM Empty _) = .ok padded ∧
          Fits H primes kb nonce padded) ∧
      (∀ f chunk, f ≤ streamAeV8MaxFrame → (∀ c ∈ chunk, IsScalar c) → chunk.length ≤ f →
        ∃ filler,
          (padCharsChecked H kb nonce (List.range (f - chunk.length)) : RustM Empty _) =
            .ok filler ∧
          filler = (List.range (f - chunk.length)).map (deriveStreamV8FillerCp H kb nonce) ∧
          Fits H primes kb nonce (chunk ++ filler))) ∧
    (∀ key, validateKeyV7Decrypt key = .ok ⟨⟩ → ∀ kb nonce,
      (∀ cps, (∀ c ∈ cps, IsScalar c) → Returns (emitTokensV7 H noise cps kb nonce key) ∧
        ∀ tokens, emitTokensV7 H noise cps kb nonce key = .ok tokens → ∀ t ∈ tokens, t < 2 ^ 64) ∧
      ∀ msg, (∀ c ∈ msg, IsScalar c) → msg.length ≤ maxPlaintextCodepoints →
        ∃ padded,
          (padToBlockChecked H msg kb nonce (bucketBlockSize msg.length) : RustM Empty _) =
            .ok padded ∧
          (padMessage H msg kb nonce : RustM Empty _) = .ok padded ∧
          emitTokensV7Checked H noise padded kb nonce key =
            emitTokensV7 H noise padded kb nonce key ∧
          ∀ tokens, emitTokensV7 H noise padded kb nonce key = .ok tokens →
            ∃ ks, (varintKeystream H kb nonce (fixedEncodeTokens tokens).length :
              RustM Empty _) = .ok ks) := by
  refine ⟨deriveNoiseThresholdV8_range H, ?_, ?_⟩
  · intro primes hvalid kb nonce
    have hkey := (validateKey_iff primes).mp hvalid
    refine ⟨?_, ?_, ?_⟩
    · intro cps tokens hcps hemit
      rw [emitTokensV8_eq_ok H kb nonce hkey fun c hc => (hcps c hc).lt] at hemit
      rw [← Except.ok.inj hemit]
      exact tokensOf_lt_scalar hkey hcps
    · intro profile msg b hmsg _ hb
      obtain ⟨hreach, hlt, -⟩ := blockSize_spec hb
      refine ⟨padded H msg kb nonce b, padToBlockChecked_eq_ok hreach hlt,
        padToBlock_eq_ok H kb nonce hlt, ?_⟩
      apply fits_of_length_le hkey (isScalar_of_mem_padded H kb nonce b hmsg)
      rw [length_padded H kb nonce hlt]
      exact Nat.add_le_add_right hreach.le 2
    · intro f chunk hf hchunk hlen
      rw [streamAeV8MaxFrame] at hf
      refine ⟨_, padCharsChecked_range (by omega), rfl, ?_⟩
      apply fits_of_length_le hkey
      · intro c hc
        rcases List.mem_append.mp hc with hc | hc
        · exact hchunk c hc
        · obtain ⟨i, -, rfl⟩ := List.mem_map.mp hc
          have := derivePadChar_lt H kb nonce i
          exact ⟨by omega, by omega⟩
      · rw [List.length_append, List.length_map, List.length_range]
        omega
  · intro key hvalid kb nonce
    have hkey := (validateKeyV7Decrypt_iff key).mp hvalid
    refine ⟨?_, ?_⟩
    · intro cps hcps
      refine ⟨returns_emitCodepointsV7 hkey hcps 0 0 [], ?_⟩
      intro tokens hemit
      exact (carries_of_emitTokensV7 hkey hcps hemit).word
    · intro msg hmsg hlen
      obtain ⟨hreach, hlt⟩ := bucketBlockSize_spec hlen
      have hscalar := isScalar_of_mem_padded H kb nonce (bucketBlockSize msg.length) hmsg
      have hblock := hreach.le
      refine ⟨_, padToBlockChecked_eq_ok hreach hlt, padMessage_eq hlen, ?_, ?_⟩
      · apply emitTokensV7Checked_eq hkey hscalar
        rw [length_padded H kb nonce hlt, v7NoiseRunGuard]
        omega
      · intro tokens hemit
        have hcarries := carries_of_emitTokensV7 hkey hscalar hemit
        exact ⟨_, varintKeystream_eq_ok H kb nonce (length_fixedEncodeTokens_le hlen hcarries)⟩

/-- Two characters, one of them beyond ASCII, as a padded block, as a frame of five with filler, and
under a v7 key. -/
theorem token_arithmetic_fits_two_chars :
    (∃ padded, (padToBlockChecked zeroHmac [104, 233] [9] [1] 16 : RustM Empty _) = .ok padded ∧
        Fits zeroHmac [1000003] [9] [1] padded) ∧
      (∃ filler, filler = (List.range 3).map (deriveStreamV8FillerCp zeroHmac [9] [1]) ∧
        Fits zeroHmac [1000003] [9] [1] ([104, 233] ++ filler)) ∧
      ∃ padded, (padMessage zeroHmac [104, 233] [9] [1] : RustM Empty _) = .ok padded ∧
        emitTokensV7Checked zeroHmac (fun _ _ _ => false) padded [9] [1] [1000003] =
          emitTokensV7 zeroHmac (fun _ _ _ => false) padded [9] [1] [1000003] := by
  have hscalar : ∀ c ∈ [104, 233], IsScalar c :=
    Str.isScalar_of_mem_codepoints ['h', 'é']
  have hkey : validateKeyV7Decrypt [1000003] = .ok ⟨⟩ :=
    (validateKeyV7Decrypt_iff _).mpr (KeyUsable.of_keyValid keyValid_1000003)
  obtain ⟨-, hv8, hv7⟩ := token_arithmetic_fits zeroHmac fun _ _ _ => false
  obtain ⟨-, hblock, hframe⟩ := hv8 [1000003] validateKey_1000003 [9] [1]
  refine ⟨?_, ?_, ?_⟩
  · obtain ⟨padded, hpad, -, hfits⟩ := hblock .bucket [104, 233] 16 hscalar (by decide) rfl
    exact ⟨padded, hpad, hfits⟩
  · obtain ⟨filler, -, hfiller, hfits⟩ := hframe 5 [104, 233] (by decide) hscalar (by decide)
    exact ⟨filler, hfiller, hfits⟩
  · obtain ⟨padded, -, hpad, hchecked, -⟩ := (hv7 [1000003] hkey [9] [1]).2 [104, 233] hscalar
      (by decide)
    exact ⟨padded, hpad, hchecked⟩

end Napqes.Rust
