import Napqes.Format.Block
import Napqes.Python.Block
import Napqes.Rust.Proofs.Block

/-!
# The Python block functions compute the block format

While every position counter fits its five bytes, each loop of the Python port is the schedule
of `Napqes.Format.Tokens`; `encrypt_bytes_v8` returns `sealBlock` and `decrypt_bytes_v8`
accepts what `BlockOpensTo` describes.
-/

namespace Napqes.Python

variable (H : Hmac) {primes : List Nat} (skFmt nonce : List UInt8)

/-! ## Derivations -/

theorem deriveNoiseThresholdV8_eq :
    deriveNoiseThresholdV8 H skFmt nonce = Rust.deriveNoiseThresholdV8 H skFmt nonce := rfl

theorem isNoisePosV8_eq_ok {pos : Nat} (hpos : pos < 2 ^ 40) :
    isNoisePosV8 H skFmt nonce pos (deriveNoiseThresholdV8 H skFmt nonce) =
      .ok (noiseAt H skFmt nonce pos) := by
  rw [isNoisePosV8, toBytes_of_lt hpos, ok_bind, noiseAt, Rust.isNoisePosV8, Rust.noisePosInput,
    Rust.be5_eq]
  rfl

theorem addendOf_eq_ok (x : Nat) {k : Nat} (hk : 2 ≤ k) :
    addendOf x k = .ok (x % (k - 1) + 1) := by
  have hmodulus : (k : Int) - 1 = ((k - 1 : Nat) : Int) := by omega
  have hne : ((k - 1 : Nat) : Int) ≠ 0 := by omega
  simp only [addendOf, hmodulus, if_neg hne]
  rw [Int.fmod_eq_emod_of_nonneg _ (by omega)]
  norm_cast

theorem keyAt_of_ne_nil (h : primes ≠ []) (i : Nat) : keyAt primes i = .ok (keyElem primes i) := by
  simp only [keyAt, getElem?_keyElem h i]

theorem keyAt_eq_ok (hkey : KeyValid primes) (i : Nat) :
    keyAt primes i = .ok (keyElem primes i) := keyAt_of_ne_nil hkey.nonempty i

theorem deriveAddend_of_two_le {idx k : Nat} (hk : 2 ≤ k) (hidx : idx < 2 ^ 40) :
    deriveAddend H skFmt nonce idx k =
      .ok (Rust.addendVal (H skFmt (Rust.addendInput nonce idx)).toList k) := by
  rw [deriveAddend, toBytes_of_lt hidx, ok_bind]
  simp only
  rw [addendOf_eq_ok _ hk, Rust.addendVal, Rust.addendInput, Rust.be5_eq]
  rfl

theorem deriveAddend_eq_ok (hkey : KeyValid primes) {idx : Nat} (hidx : idx < 2 ^ 40) :
    deriveAddend H skFmt nonce idx (keyElem primes idx) =
      .ok (realAddend H primes skFmt nonce idx) := by
  have hk := keyElem_range hkey idx
  exact deriveAddend_of_two_le H skFmt nonce (by omega) hidx

theorem noiseToken_of_two_le (h : primes ≠ []) {idx pos : Nat} (hk : 2 ≤ keyElem primes idx)
    (hpos : pos < 2 ^ 40) :
    noiseToken H primes skFmt nonce idx pos = .ok (fillerToken H primes skFmt nonce idx pos) := by
  rw [noiseToken, keyAt_of_ne_nil h, ok_bind, deriveNoiseChar, toBytes_of_lt hpos, ok_bind]
  simp only [pure, Except.pure, ok_bind]
  rw [deriveNoiseTokenAddend, toBytes_of_lt hpos, ok_bind]
  simp only
  rw [addendOf_eq_ok _ hk, ok_bind, fillerToken, Rust.deriveNoiseChar, Rust.addendVal,
    Rust.noiseCharInput, Rust.noiseAddendInput, Rust.be5_eq]
  rfl

theorem noiseToken_eq_ok (hkey : KeyValid primes) (idx : Nat) {pos : Nat} (hpos : pos < 2 ^ 40) :
    noiseToken H primes skFmt nonce idx pos = .ok (fillerToken H primes skFmt nonce idx pos) := by
  have hk := keyElem_range hkey idx
  exact noiseToken_of_two_le H skFmt nonce hkey.nonempty (by omega) hpos

/-! ## Emission -/

/-- The inner loop emits the noise run. -/
theorem emitNoise_eq_ok (hkey : KeyValid primes) (idx noiseRun pos : Nat) (cypher : List Nat)
    (hpos : pos + (maxNoiseRun - noiseRun) ≤ 2 ^ 40) :
    emitNoise H primes skFmt nonce (deriveNoiseThresholdV8 H skFmt nonce) idx noiseRun pos cypher =
      let len := Schedule.run (noiseAt H skFmt nonce) (maxNoiseRun - noiseRun) pos
      .ok (cypher ++ (List.range' pos len).map (fillerToken H primes skFmt nonce idx),
        pos + len) := by
  induction hcap : maxNoiseRun - noiseRun generalizing noiseRun pos cypher with
  | zero =>
      rw [emitNoise, dif_neg (by omega)]
      simp [Schedule.run, pure, Except.pure]
  | succ cap ih =>
      rw [emitNoise, dif_pos (by omega), isNoisePosV8_eq_ok H skFmt nonce (by omega), ok_bind]
      by_cases hnoise : noiseAt H skFmt nonce pos = true
      · simp only [hnoise, if_true]
        rw [noiseToken_eq_ok H skFmt nonce hkey idx (by omega), ok_bind,
          ih (noiseRun + 1) (pos + 1) _ (by omega) (by omega)]
        simp only [Schedule.run, if_pos hnoise, List.range'_succ, List.map_cons,
          List.append_assoc, List.cons_append, List.nil_append, Except.ok.injEq,
          Prod.mk.injEq, true_and]
        omega
      · simp [Schedule.run, hnoise, pure, Except.pure]

/-- The loop over the padded codepoints is the schedule's emission. -/
theorem emitPadded_eq_ok (hkey : KeyValid primes) (cps : List Nat) (idx pos : Nat)
    (cypher : List Nat) (hidx : idx + cps.length ≤ 2 ^ 40)
    (hpos : pos + cps.length * 20 ≤ 2 ^ 40) :
    emitPadded H primes skFmt nonce (deriveNoiseThresholdV8 H skFmt nonce) cps idx pos cypher =
      let slots := Schedule.emit (noiseAt H skFmt nonce) noiseCap
        (realToken H primes skFmt nonce) (fillerToken H primes skFmt nonce) idx pos cps
      .ok (cypher ++ slots, idx + cps.length, pos + slots.length) := by
  induction cps generalizing idx pos cypher with
  | nil => simp [emitPadded, Schedule.emit, pure, Except.pure]
  | cons c cps ih =>
      have hrun := Schedule.run_le (noiseAt H skFmt nonce) 19 pos
      simp only [List.length_cons] at hidx hpos
      rw [emitPadded,
        emitNoise_eq_ok H skFmt nonce hkey _ _ _ _ (by simp only [maxNoiseRun]; omega)]
      simp only [ok_bind]
      rw [keyAt_eq_ok hkey, ok_bind, deriveAddend_eq_ok H skFmt nonce hkey (by omega), ok_bind,
        ih _ _ _ (by omega) (by simp only [maxNoiseRun, Nat.sub_zero]; omega)]
      simp only [Schedule.emit, maxNoiseRun, noiseCap, Nat.sub_zero, List.append_assoc,
        List.cons_append, List.nil_append, List.length_append, List.length_map,
        List.length_range', List.length_cons, Except.ok.injEq, Prod.mk.injEq, realToken,
        true_and]
      omega

/-- The filler loop appends noise up to the ceiling. -/
theorem fillCeiling_eq_ok (hkey : KeyValid primes) (ceiling idx pos : Nat) (cypher : List Nat)
    (hpos : pos + (ceiling - cypher.length) ≤ 2 ^ 40) :
    fillCeiling H primes skFmt nonce ceiling idx pos cypher =
      .ok (cypher ++ (List.range' pos (ceiling - cypher.length)).map
        (fillerToken H primes skFmt nonce idx)) := by
  induction hrest : ceiling - cypher.length generalizing pos cypher with
  | zero =>
      rw [fillCeiling, dif_neg (by omega)]
      simp
  | succ rest ih =>
      rw [fillCeiling, dif_pos (by omega), noiseToken_eq_ok H skFmt nonce hkey idx (by omega),
        ok_bind, ih _ _ (by simp; omega) (by simp; omega)]
      simp [List.range'_succ]

/-! ## Padding -/

/-- The Python value for a profile of the Rust port. -/
def PadProfile.ofRust : Rust.PadProfile → PadProfile
  | .bucket => .bucket
  | .coarse g => .coarse g.toNat
  | .frame f => .frame f.toNat

/-- `-(-a // g)` is the rounded-up quotient. -/
theorem neg_fdiv_neg (a : Nat) {g : Nat} (hg : 0 < g) :
    (-((-(a : Int)).fdiv g)).toNat = (a + g - 1) / g := by
  have hq := Nat.div_add_mod (a + g - 1) g
  have hr := Nat.mod_lt (a + g - 1) hg
  have hmul : (g : Int) * -(((a + g - 1) / g : Nat) : Int) =
      -((g * ((a + g - 1) / g) : Nat) : Int) := by
    push_cast
    ring
  have hdiv : (-(a : Int)) / g = -(((a + g - 1) / g : Nat) : Int) := by
    refine ((Int.ediv_emod_unique (r := (g * ((a + g - 1) / g) : Nat) - (a : Int))
      (by omega : (0 : Int) < g)).mpr ⟨?_, ?_, ?_⟩).1
    · rw [hmul]
      omega
    · omega
    · omega
  rw [Int.fdiv_eq_ediv_of_nonneg _ (by omega), hdiv, Int.neg_neg, Int.toNat_natCast]

theorem bitLength_two_pow (e : Nat) : Rust.bitLength (2 ^ e) = e + 1 := by
  have hne : 2 ^ e ≠ 0 := by positivity
  rw [Rust.bitLength, if_neg hne, Nat.log2_two_pow]

/-- The frame sizes Python accepts are the reachable block sizes. -/
theorem reachableBlock_iff_bitLength (f : Nat) :
    Rust.ReachableBlock f ↔ 1 ≤ f ∧ 1 <<< (Rust.bitLength f - 1) = f ∧
      padMinExp ≤ Rust.bitLength f - 1 ∧ Rust.bitLength f - 1 ≤ padMaxExp := by
  constructor
  · rintro ⟨e, hlo, hhi, rfl⟩
    rw [bitLength_two_pow, Nat.add_sub_cancel]
    exact ⟨Nat.one_le_two_pow, by rw [Nat.shiftLeft_eq, Nat.one_mul], hlo, hhi⟩
  · rintro ⟨-, hpow, hlo, hhi⟩
    refine ⟨Rust.bitLength f - 1, hlo, hhi, ?_⟩
    rw [← Nat.one_mul (2 ^ (Rust.bitLength f - 1)), ← Nat.shiftLeft_eq]
    exact hpow.symm

theorem paddingBucket_frame_eq_ok_iff (f n b : Nat) :
    paddingBucket n (.frame f) = .ok b ↔ Rust.ReachableBlock f ∧ n < f ∧ b = f := by
  have hreach := reachableBlock_iff_bitLength f
  simp only [paddingBucket]
  by_cases hpos : f < 1
  · have hnot : ¬ Rust.ReachableBlock f := fun h => by have := (hreach.mp h).1; omega
    rw [if_pos hpos]
    simp [hnot, valueError, raise]
  · rw [if_neg hpos]
    by_cases hf : Rust.ReachableBlock f
    · obtain ⟨-, hpow, hexps⟩ := hreach.mp hf
      rw [if_neg (by rintro (h | h) <;> contradiction)]
      by_cases hlong : n < f
      · rw [if_neg (Nat.not_le.mpr hlong)]
        simp [hf, hlong, eq_comm]
      · rw [if_pos (Nat.le_of_not_lt hlong)]
        simp [hlong, valueError, raise]
    · have hbad : 1 <<< (Rust.bitLength f - 1) ≠ f ∨
          ¬ (padMinExp ≤ Rust.bitLength f - 1 ∧ Rust.bitLength f - 1 ≤ padMaxExp) := by
        by_contra hok
        simp only [not_or, Decidable.not_not] at hok
        exact hf (hreach.mpr ⟨by omega, hok.1, hok.2⟩)
      rw [if_pos hbad]
      simp [hf, valueError, raise]

/-- The two ports choose the same block size. -/
theorem paddingBucket_eq_ok_iff (profile : Rust.PadProfile) {n : Nat}
    (hn : n ≤ maxPlaintextCodepoints) (b : Nat) :
    paddingBucket n (.ofRust profile) = .ok b ↔ profile.blockSize n = .ok b := by
  have hsmall : ¬ n ≥ 1 <<< Rust.padMaxExp := by
    simp only [maxPlaintextCodepoints] at hn
    simp only [Rust.padMaxExp]
    omega
  have hexp : max padMinExp (Rust.bitLength n) = max (Rust.bitLength n) Rust.padMinExp :=
    Nat.max_comm _ _
  have hrust := fun f => Rust.blockSize_frame_eq_ok_iff f n b
  unfold Rust.PadProfile.blockSize at hrust ⊢
  simp only [if_neg hsmall] at hrust ⊢
  cases profile with
  | bucket =>
      simp only [PadProfile.ofRust, paddingBucket, hexp, Except.ok.injEq, Rust.bucketBlockSize]
  | coarse g =>
      by_cases hg : g.toNat = 0 ∨ (Rust.padMaxExp - Rust.padMinExp) % g.toNat ≠ 0
      · have hg' : g.toNat < 1 ∨ (padMaxExp - padMinExp) % g.toNat ≠ 0 :=
          hg.imp (fun h => by omega) id
        simp only [PadProfile.ofRust, paddingBucket]
        rw [if_pos hg, if_pos hg']
        simp [valueError, raise, Rust.err]
      · have hg' : ¬ (g.toNat < 1 ∨ (padMaxExp - padMinExp) % g.toNat ≠ 0) :=
          fun h => hg (h.imp (fun h => by omega) id)
        have hpos : 0 < g.toNat := by
          by_contra hzero
          exact hg (Or.inl (by omega))
        have hcast : ((max (Rust.bitLength n) Rust.padMinExp : Nat) : Int) - (padMinExp : Nat) =
            ((max (Rust.bitLength n) Rust.padMinExp - Rust.padMinExp : Nat) : Int) := by
          simp only [padMinExp, Rust.padMinExp]
          omega
        simp only [PadProfile.ofRust, paddingBucket, hexp]
        rw [if_neg hg, if_neg hg', hcast, neg_fdiv_neg _ hpos]
        simp only [Except.ok.injEq]
        rfl
  | frame f =>
      have hlt : n < 2 ^ Rust.padMaxExp := by
        simp only [maxPlaintextCodepoints] at hn
        simp only [Rust.padMaxExp]
        omega
      rw [PadProfile.ofRust, paddingBucket_frame_eq_ok_iff]
      refine Iff.trans ?_ (hrust f).symm
      simp [hlt]

/-- The padding of a block. -/
theorem padLoop_eq_ok {is : List Nat} (his : ∀ i ∈ is, i < 2 ^ 32) :
    padLoop H skFmt nonce is = .ok (is.map (Rust.derivePadChar H skFmt nonce)) := by
  induction is with
  | nil => rfl
  | cons i is ih =>
      rw [padLoop, toBytes_of_lt (his i (by simp)), ok_bind, ih fun j hj => his j (by simp [hj])]
      rfl

theorem padMessage_eq_ok_iff (msg : List Nat) (profile : Rust.PadProfile) (out : List Nat) :
    padMessage H msg skFmt nonce (.ofRust profile) = .ok out ↔
      ∃ b, profile.blockSize msg.length = .ok b ∧ out = Rust.padded H msg skFmt nonce b := by
  rw [padMessage]
  by_cases hlong : msg.length > maxPlaintextCodepoints
  · simp only [if_pos hlong, valueError, raise, reduceCtorEq, false_iff]
    rintro ⟨b, hb, -⟩
    have hmax := (Rust.blockSize_spec hb).2.2
    simp only [maxPlaintextCodepoints, Rust.padMaxExp] at hlong hmax
    omega
  · simp only [if_neg hlong, bind_eq_ok, paddingBucket_eq_ok_iff profile (Nat.le_of_not_lt hlong)]
    refine exists_congr fun b => and_congr_right fun hb => ?_
    have hle := (Rust.blockSize_spec hb).1.le
    rw [padLoop_eq_ok H skFmt nonce fun i hi => by
      have := List.mem_range.mp hi
      omega]
    have hhigh : (msg.length >>> 8) &&& 0xFF = msg.length >>> 8 := by
      rw [show (0xFF : Nat) = 2 ^ 8 - 1 from rfl, Nat.and_two_pow_sub_one_eq_mod]
      apply Nat.mod_eq_of_lt
      rw [Nat.shiftRight_eq_div_pow]
      simp only [maxPlaintextCodepoints] at hlong
      omega
    simp [Rust.padded, hhigh, pure, Except.pure, eq_comm]

theorem unpadMessage_eq_ok_iff (cps out : List Nat) :
    unpadMessage cps = .ok out ↔ Rust.unpadMessage cps = .ok out := by
  unfold unpadMessage Rust.unpadMessage
  split
  case h_1 hi lo rest =>
    by_cases hbyte : hi > 0xFF ∨ lo > 0xFF
    · simp [hbyte, valueError, raise, Rust.err]
    · simp only [if_neg hbyte]
      by_cases hlen : 2 + ((hi <<< 8) ||| lo) > rest.length + 2
      · simp [hlen, valueError, raise, Rust.err]
      · simp [hlen]
  case h_2 => simp [valueError, raise, Rust.err]

/-! ## Fields and keystream -/

theorem fixedEncodeTokens_eq_ok {tokens : List Nat} (h : ∀ t ∈ tokens, t < 2 ^ 64) :
    fixedEncodeTokens tokens = .ok (tokens.flatMap (beBytes 8)) := by
  induction tokens with
  | nil => rfl
  | cons t tokens ih =>
      have ht : t < 2 ^ 64 := h t (by simp)
      have hmax : ¬ t > tokenMax := by
        have : tokenMax = 2 ^ 64 - 1 := rfl
        omega
      rw [fixedEncodeTokens, if_neg hmax, toBytes_of_lt (w := tokenWidth) ht, ok_bind,
        ih fun u hu => h u (by simp [hu])]
      rfl

theorem fixedDecodeTokens_eq_ok_iff (data : List UInt8) (tokens : List Nat) :
    fixedDecodeTokens data = .ok tokens ↔
      data.length % 8 = 0 ∧ tokens = (chunksExact 8 (data.length / 8) data).map beNat := by
  by_cases h : data.length % 8 = 0
  · simp [fixedDecodeTokens, tokenWidth, h, eq_comm]
  · simp [fixedDecodeTokens, tokenWidth, h, valueError, raise]

/-- With all blocks so far in `out`, the loop completes the counter stream. -/
theorem varintKeystreamLoop_eq_ok (len : Nat) (hlen : len ≤ 32 * 2 ^ 32) (block : Nat)
    (hblock : block ≤ (len + 31) / 32) :
    varintKeystreamLoop H skFmt nonce len
      ((List.range block).flatMap fun i => (H skFmt (Rust.keystreamInput nonce i)).toList) block =
        .ok (keystream H skFmt nonce len) := by
  induction hrest : (len + 31) / 32 - block generalizing block with
  | zero =>
      have hall : block = (len + 32 - 1) / 32 := by omega
      rw [varintKeystreamLoop, dif_neg]
      · rw [hall]
        rfl
      · rw [length_flatMap_blocks, List.length_range]
        omega
  | succ rest ih =>
      have hfits : block < 256 ^ 4 := by omega
      rw [varintKeystreamLoop, dif_pos, toBytes_of_lt hfits, ok_bind]
      · rw [← ih (block + 1) (by omega) (by omega), List.range_succ, List.flatMap_append]
        simp [Rust.keystreamInput]
      · rw [length_flatMap_blocks, List.length_range]
        omega

/-- `_varint_keystream` is the counter stream while its block index fits four bytes. -/
theorem varintKeystream_eq_ok {len : Nat} (hlen : len ≤ 32 * 2 ^ 32) :
    varintKeystream H skFmt nonce len = .ok (keystream H skFmt nonce len) :=
  varintKeystreamLoop_eq_ok H skFmt nonce len hlen 0 (Nat.zero_le _)

/-! ## Encryption -/

/-- Emission and filling together give the tokens of the format. -/
theorem emit_fill_eq_ok (hkey : KeyValid primes) (cps : List Nat)
    (hlen : cps.length * 20 ≤ 2 ^ 40) :
    (do
      let (cypher, realIdx, ctPos) ← emitPadded H primes skFmt nonce
        (deriveNoiseThresholdV8 H skFmt nonce) cps 0 0 []
      fillCeiling H primes skFmt nonce (cps.length * (maxNoiseRun + 1)) realIdx ctPos cypher) =
      .ok (tokensOf H primes skFmt nonce cps) := by
  have hslots := Schedule.length_emit_le (noiseAt H skFmt nonce) noiseCap
    (realToken H primes skFmt nonce) (fillerToken H primes skFmt nonce) 0 0 cps
  rw [emitPadded_eq_ok H skFmt nonce hkey _ _ _ _ (by omega) (by omega)]
  simp only [ok_bind, List.nil_append, Nat.zero_add]
  rw [fillCeiling_eq_ok H skFmt nonce hkey _ _ _ _ (by
    simp only [maxNoiseRun, noiseCap] at hslots ⊢
    omega)]
  rfl

/-- `_encrypt_v8_core` emits the tokens of the padded message. -/
theorem encryptV8Core_eq_ok_iff (hkey : KeyValid primes) (msg : List Nat)
    (profile : Rust.PadProfile) (tokens : List Nat) :
    encryptV8Core H msg primes skFmt nonce (.ofRust profile) = .ok tokens ↔
      ∃ b, profile.blockSize msg.length = .ok b ∧
        tokens = tokensOf H primes skFmt nonce (Rust.padded H msg skFmt nonce b) := by
  rw [encryptV8Core, bind_eq_ok]
  simp only [padMessage_eq_ok_iff]
  constructor
  · rintro ⟨cps, ⟨b, hb, hcps⟩, htokens⟩
    obtain ⟨hreach, hlt, -⟩ := Rust.blockSize_spec hb
    have hle := hreach.le
    have hlen : cps.length = b + 2 := hcps ▸ Rust.length_padded H skFmt nonce hlt
    rw [emit_fill_eq_ok H skFmt nonce hkey cps (by omega), Except.ok.injEq] at htokens
    exact ⟨b, hb, by rw [← hcps, htokens]⟩
  · rintro ⟨b, hb, htokens⟩
    obtain ⟨hreach, hlt, -⟩ := Rust.blockSize_spec hb
    have hle := hreach.le
    have hlen := Rust.length_padded H skFmt nonce hlt
    refine ⟨_, ⟨b, hb, rfl⟩, ?_⟩
    rw [htokens]
    exact emit_fill_eq_ok H skFmt nonce hkey _ (by omega)

/-- A string of scalar values is in the message domain. -/
theorem validateMessageDomain_codepoints (message : Str) :
    validateMessageDomain message.codepoints = .ok ⟨⟩ := by
  rw [validateMessageDomain, forM_eq_ok]
  rintro ⟨cp, i⟩ hmem
  have hcp : cp ∈ message.codepoints :=
    List.mem_of_getElem? (List.mem_zipIdx_iff_getElem?.mp hmem)
  have hscalar := message.isScalar_of_mem_codepoints cp hcp
  simp only [if_neg hscalar.2]
  rfl

theorem computeAuthTag_append {aad : List UInt8} (haad : aad.length < 2 ^ 64)
    (hnonce : nonce.length = nonceSize) (masked : List UInt8) :
    computeAuthTag H skFmt aad (nonce ++ masked) aadLenWidthV8 =
      .ok (H skFmt (Rust.authTagInput aad nonce masked)).toList := by
  rw [computeAuthTag, List.take_left' hnonce, List.drop_left' hnonce,
    toBytes_of_lt (w := aadLenWidthV8) haad]
  rfl

/-- The end of `encrypt_bytes_v8`: fields, mask and tag of the padded message. -/
theorem seal_padded_eq_ok (hkey : KeyValid primes) {aad : List UInt8}
    (haad : aad.length < 2 ^ 64) (hnonce : nonce.length = nonceSize) (message : Str) {b : Nat}
    (hb : Rust.ReachableBlock b) (hlt : message.codepoints.length < b) :
    let cps := Rust.padded H message.codepoints skFmt nonce b
    (do
      let tokenBlob ← fixedEncodeTokens (tokensOf H primes skFmt nonce cps)
      let ks ← varintKeystream H skFmt nonce tokenBlob.length
      let maskedBlob := xorBytes tokenBlob ks
      let payload := nonce ++ maskedBlob
      let tag ← computeAuthTag H skFmt aad payload aadLenWidthV8
      return payload ++ tag : PyM (List UInt8)) =
      .ok (nonce ++ sealTokens H skFmt nonce primes cps ++ (H skFmt (Rust.authTagInput aad nonce
        (sealTokens H skFmt nonce primes cps))).toList) := by
  intro cps
  have hcps : ∀ c ∈ cps, IsScalar c :=
    Rust.isScalar_of_mem_padded H skFmt nonce b message.isScalar_of_mem_codepoints
  have hlen : cps.length = b + 2 := Rust.length_padded H skFmt nonce hlt
  have hle := hb.le
  have htokens : ∀ t ∈ tokensOf H primes skFmt nonce cps, t < 2 ^ 64 := fun t ht =>
    Nat.lt_trans (tokensOf_lt H skFmt nonce hkey (fun c hc => (hcps c hc).lt) t ht) (by decide)
  rw [fixedEncodeTokens_eq_ok htokens, ok_bind, varintKeystream_eq_ok H skFmt nonce (by
    rw [length_flatMap_beBytes, length_tokensOf]
    omega), ok_bind]
  simp only
  rw [computeAuthTag_append H skFmt nonce haad hnonce]
  rfl

variable {mathSqrt : Nat → Nat}

/-- Under a valid key `encrypt_bytes_v8` returns the ciphertext of the format, if the profile
takes the message. -/
theorem encryptBytesV8_eq_ok_iff (hpy : validateKey mathSqrt primes = .ok ⟨⟩)
    (hkey : KeyValid primes) (message : Str) (sk : FixedBytes 32) {aad : List UInt8}
    (haad : aad.length < 2 ^ 64) (profile : Rust.PadProfile) (c : List UInt8) :
    encryptBytesV8 H mathSqrt message.codepoints primes sk.toList aad (.ofRust profile) = .ok c ↔
      ∃ b, profile.blockSize message.codepoints.length = .ok b ∧
        c = sealBlock H primes (Rust.deriveFormatSubkey H sk Rust.formatBlockV8).toList aad
          message b := by
  have hsk : ¬ sk.toList.length ≠ skSize := fun h => h sk.length_toList
  have hfmt : deriveFormatSubkey H sk.toList formatBlockV8 =
      (Rust.deriveFormatSubkey H sk Rust.formatBlockV8).toList := rfl
  have hnonce : ∀ kb, syntheticNonce H kb aad message.asBytes =
      .ok (Rust.syntheticNonce H kb aad message.asBytes).toList := by
    intro kb
    rw [syntheticNonce, toBytes_of_lt (w := aadLenWidthV8) haad]
    rfl
  rw [encryptBytesV8, hpy, ok_bind]
  simp only [if_neg hsk, validateMessageDomain_codepoints, encodeUtf8_codepoints, ok_bind, hfmt,
    hnonce]
  rw [bind_eq_ok]
  simp only [encryptV8Core_eq_ok_iff H _ _ hkey]
  have hnlen := (Rust.syntheticNonce H (Rust.deriveFormatSubkey H sk Rust.formatBlockV8).toList aad
    message.asBytes).length_toList
  constructor
  · rintro ⟨tokens, ⟨b, hb, rfl⟩, hc⟩
    obtain ⟨hreach, hlt, -⟩ := Rust.blockSize_spec hb
    rw [seal_padded_eq_ok H _ _ hkey haad hnlen message hreach hlt, Except.ok.injEq] at hc
    exact ⟨b, hb, hc.symm⟩
  · rintro ⟨b, hb, rfl⟩
    obtain ⟨hreach, hlt, -⟩ := Rust.blockSize_spec hb
    exact ⟨_, ⟨b, hb, rfl⟩, seal_padded_eq_ok H _ _ hkey haad hnlen message hreach hlt⟩

/-! ## Decryption -/

/-- The skipping loop stops at the end of the noise run or of the tokens. -/
theorem skipNoise_eq_ok (n noiseRun pos : Nat) (hpos : pos ≤ n) (hn : n ≤ 2 ^ 40) :
    skipNoise H skFmt nonce (deriveNoiseThresholdV8 H skFmt nonce) n noiseRun pos =
      .ok (min (pos + Schedule.run (noiseAt H skFmt nonce) (maxNoiseRun - noiseRun) pos) n) := by
  induction hcap : maxNoiseRun - noiseRun generalizing noiseRun pos with
  | zero =>
      rw [skipNoise, dif_neg (by omega)]
      simp [Schedule.run, hpos, pure, Except.pure]
  | succ cap ih =>
      rw [skipNoise]
      by_cases hend : pos < n
      · rw [dif_pos ⟨by omega, hend⟩, isNoisePosV8_eq_ok H skFmt nonce (by omega), ok_bind,
          Schedule.min_run_eq _ hend]
        by_cases hnoise : noiseAt H skFmt nonce pos = true
        · simp only [hnoise, if_true]
          exact ih _ _ hend (by omega)
        · simp [hnoise, pure, Except.pure]
      · have hmin : min (pos + Schedule.run (noiseAt H skFmt nonce) (cap + 1) pos) n = pos := by
          omega
        rw [dif_neg (by omega), hmin]
        rfl

theorem getElem?_min_length {α : Type} (xs : List α) (i : Nat) :
    xs[min i xs.length]? = xs[i]? := by
  by_cases h : i < xs.length
  · rw [Nat.min_eq_left (Nat.le_of_lt h)]
  · rw [Nat.min_eq_right (Nat.le_of_not_lt h), List.getElem?_eq_none (Nat.le_refl _),
      List.getElem?_eq_none (Nat.le_of_not_lt h)]

/-- The decoding loop returns what the schedule's replay reads. -/
theorem toOption_readTokens (hkey : KeyValid primes) (cypher : List Nat)
    (hlen : cypher.length ≤ 2 ^ 40) (n idx pos : Nat) (padded : List Nat)
    (hidx : idx + n ≤ 2 ^ 40) (hpos : pos ≤ cypher.length) :
    (readTokens H primes skFmt nonce (deriveNoiseThresholdV8 H skFmt nonce) cypher (idx + n) idx
      pos padded).toOption =
      (Schedule.decode (noiseAt H skFmt nonce) noiseCap (recoverToken H primes skFmt nonce) cypher
        n idx pos).map (padded ++ ·) := by
  induction n generalizing idx pos padded with
  | zero =>
      rw [readTokens, dif_neg (by omega)]
      simp [Schedule.decode, Except.toOption]
  | succ n ih =>
      have hskip : skipNoise H skFmt nonce (deriveNoiseThresholdV8 H skFmt nonce) cypher.length
          0 pos = .ok (min (pos + Schedule.run (noiseAt H skFmt nonce) noiseCap pos)
            cypher.length) := skipNoise_eq_ok H skFmt nonce _ _ _ hpos hlen
      rw [readTokens, dif_pos (by omega), hskip, ok_bind, Schedule.decode]
      cases htoken : cypher[pos + Schedule.run (noiseAt H skFmt nonce) noiseCap pos]? with
      | none =>
          rw [getElem?_min_length, htoken]
          rfl
      | some token =>
          have hlt := (List.getElem?_eq_some_iff.mp htoken).1
          rw [getElem?_min_length, htoken, Nat.min_eq_left (Nat.le_of_lt hlt)]
          dsimp only
          rw [keyAt_eq_ok hkey, ok_bind, deriveAddend_eq_ok H skFmt nonce hkey (by omega), ok_bind]
          simp only [Option.bind_eq_bind, Option.bind_some, recoverToken_eq]
          by_cases hform : token < realAddend H primes skFmt nonce idx ∨
              (token - realAddend H primes skFmt nonce idx) % keyElem primes idx ≠ 0
          · rw [if_pos hform, if_pos hform]
            rfl
          · rw [if_neg hform, if_neg hform]
            by_cases hscalar : IsScalar
                ((token - realAddend H primes skFmt nonce idx) / keyElem primes idx)
            · rw [if_neg (fun h => (not_isScalar_iff _).mpr h hscalar), if_pos hscalar,
                show idx + (n + 1) = idx + 1 + n by omega, ih _ _ _ (by omega) hlt,
                Option.bind_some]
              cases Schedule.decode (noiseAt H skFmt nonce) noiseCap
                (recoverToken H primes skFmt nonce) cypher n (idx + 1)
                (pos + Schedule.run (noiseAt H skFmt nonce) noiseCap pos + 1) <;> simp
            · rw [if_pos ((not_isScalar_iff _).mp hscalar), if_neg hscalar]
              rfl

theorem mem_legalRealTokenCounts (r : Nat) :
    r ∈ legalRealTokenCounts ↔ ∃ b, Rust.ReachableBlock b ∧ r = b + 2 := by
  simp only [legalRealTokenCounts, List.mem_map, List.mem_range'_1]
  constructor
  · rintro ⟨e, ⟨hlo, hhi⟩, rfl⟩
    refine ⟨2 ^ e, ⟨e, hlo, ?_, rfl⟩, by rw [Nat.shiftLeft_eq, Nat.one_mul]⟩
    simp only [padMinExp, padMaxExp, Rust.padMaxExp] at hhi ⊢
    omega
  · rintro ⟨_, ⟨e, hlo, hhi, rfl⟩, rfl⟩
    refine ⟨e, ⟨hlo, ?_⟩, by rw [Nat.shiftLeft_eq, Nat.one_mul]⟩
    simp only [padMinExp, padMaxExp, Rust.padMaxExp] at hhi ⊢
    omega

/-- `_decrypt_v8_core` reads `B + 2` codepoints for a reachable `B` and unpads them. -/
theorem decryptV8Core_eq_ok_iff (hkey : KeyValid primes) (tokens out : List Nat) :
    decryptV8Core H nonce tokens primes skFmt = .ok out ↔
      ∃ b, Rust.ReachableBlock b ∧ tokens.length = (b + 2) * 20 ∧
        ∃ cps, Napqes.readTokens H primes skFmt nonce tokens (b + 2) = some cps ∧
          Rust.unpadMessage cps = .ok out := by
  rw [decryptV8Core]
  by_cases hmod : tokens.length % 20 = 0
  · have hunit : ¬ tokens.length % (maxNoiseRun + 1) ≠ 0 := fun h => h hmod
    simp only [if_neg hunit]
    by_cases hlegal : tokens.length / (maxNoiseRun + 1) ∈ legalRealTokenCounts
    · obtain ⟨b, hb, hcount⟩ := (mem_legalRealTokenCounts _).mp hlegal
      have hlen : tokens.length = (b + 2) * 20 := by
        simp only [maxNoiseRun] at hcount
        omega
      have hle := hb.le
      have hread := toOption_readTokens H skFmt nonce hkey tokens (by omega)
        (tokens.length / (maxNoiseRun + 1)) 0 0 [] (by omega) (Nat.zero_le _)
      rw [Nat.zero_add] at hread
      simp only [if_neg (not_not.mpr hlegal), bind_eq_ok, unpadMessage_eq_ok_iff,
        ← toOption_eq_some (x := readTokens H primes skFmt nonce _ tokens _ 0 0 []), hread,
        List.nil_append, Option.map_id']
      rw [hcount]
      constructor
      · rintro ⟨cps, hcps, hout⟩
        exact ⟨b, hb, hlen, cps, hcps, hout⟩
      · rintro ⟨b', -, hlen', cps, hcps, hout⟩
        obtain rfl : b' = b := by omega
        exact ⟨cps, hcps, hout⟩
    · simp only [if_pos hlegal, valueError, raise, reduceCtorEq, false_iff]
      rintro ⟨b, hb, hlen, -⟩
      refine hlegal ((mem_legalRealTokenCounts _).mpr ⟨b, hb, ?_⟩)
      simp only [maxNoiseRun]
      omega
  · have hunit : tokens.length % (maxNoiseRun + 1) ≠ 0 := hmod
    simp only [if_pos hunit, valueError, raise, reduceCtorEq, false_iff]
    rintro ⟨b, -, hlen, -⟩
    omega

theorem mapM_chr_eq_ok {cps : List Nat} (h : ∀ c ∈ cps, IsScalar c) : cps.mapM chr = .ok cps := by
  induction cps with
  | nil => rfl
  | cons c cps ih =>
      have hc : chr c = .ok c := if_pos (h c (by simp)).1
      rw [List.mapM_cons, hc, ok_bind, ih fun d hd => h d (by simp [hd]), ok_bind]
      rfl

/-- What the decoder does once the tag has verified. -/
theorem decrypt_masked_eq_ok_iff (hkey : KeyValid primes) (masked : List UInt8)
    (hlen : masked.length < 2 ^ 36) (out : List Nat) :
    (do
      let ks ← varintKeystream H skFmt nonce masked.length
      let tokenBlob := xorBytes masked ks
      let tokens ← fixedDecodeTokens tokenBlob
      let codepoints ← decryptV8Core H nonce tokens primes skFmt
      codepoints.mapM chr : PyM (List Nat)) = .ok out ↔
      ∃ b cps, Rust.ReachableBlock b ∧ masked.length = (b + 2) * 160 ∧
        openTokens H skFmt nonce primes masked (b + 2) = some cps ∧
        Rust.unpadMessage cps = .ok out := by
  have hks := @varintKeystream_eq_ok H skFmt nonce masked.length (by omega)
  have hblob : xorBytes masked (keystream H skFmt nonce masked.length) =
      maskWith H skFmt nonce masked := rfl
  rw [hks, ok_bind]
  simp only [hblob, bind_eq_ok, fixedDecodeTokens_eq_ok_iff, length_maskWith,
    decryptV8Core_eq_ok_iff H skFmt nonce hkey]
  have hscalar : ∀ {b cps out'}, openTokens H skFmt nonce primes masked (b + 2) = some cps →
      Rust.unpadMessage cps = .ok out' → out'.mapM chr = .ok out' := fun hcps hout =>
    mapM_chr_eq_ok fun c hc =>
      isScalar_of_readTokens H skFmt nonce hcps c (Rust.mem_of_unpadMessage hout c hc)
  constructor
  · rintro ⟨tokens, ⟨hmod, rfl⟩, out', ⟨b, hb, hcount, cps, hcps, hout⟩, hchr⟩
    simp only [List.length_map, length_chunksExact] at hcount
    rw [hscalar hcps hout, Except.ok.injEq] at hchr
    subst hchr
    exact ⟨b, cps, hb, by omega, hcps, hout⟩
  · rintro ⟨b, cps, hb, hcount, hcps, hout⟩
    refine ⟨_, ⟨by omega, rfl⟩, out, ⟨b, hb, ?_, cps, hcps, hout⟩, hscalar hcps hout⟩
    simp only [List.length_map, length_chunksExact]
    omega

/-- Under a valid key `decrypt_bytes_v8` accepts what opens in the block format. -/
theorem decryptBytesV8_eq_ok_iff (hpy : validateKey mathSqrt primes = .ok ⟨⟩)
    (hkey : KeyValid primes) (ciphertext : List UInt8) (hct : ciphertext.length < 2 ^ 36)
    (sk : FixedBytes 32) {aad : List UInt8} (haad : aad.length < 2 ^ 64) (out : List Nat) :
    decryptBytesV8 H mathSqrt ciphertext primes sk.toList aad = .ok out ↔
      BlockOpensTo H primes (Rust.deriveFormatSubkey H sk Rust.formatBlockV8).toList
        (Rust.hmacVerify H) aad ciphertext out := by
  have hsk : ¬ sk.toList.length ≠ skSize := fun h => h sk.length_toList
  have hfmt : deriveFormatSubkey H sk.toList formatBlockV8 =
      (Rust.deriveFormatSubkey H sk Rust.formatBlockV8).toList := rfl
  rw [decryptBytesV8, hpy, ok_bind]
  simp only [if_neg hsk, hfmt]
  generalize (Rust.deriveFormatSubkey H sk Rust.formatBlockV8).toList = kb
  by_cases hlen : nonceSize + tagSize ≤ ciphertext.length
  · obtain ⟨nonce, masked, tag, hsplit, hnonce, htag⟩ := split_ciphertext ciphertext hlen
    change nonce.length = nonceSize at hnonce
    change tag.length = tagSize at htag
    subst hsplit
    have hblob : (nonce ++ masked ++ tag).length - nonceSize - tagSize = masked.length := by
      simp only [List.length_append, hnonce, htag]
      omega
    have hfront : (nonce ++ masked ++ tag).length - tagSize = (nonce ++ masked).length := by
      simp only [List.length_append, htag]
      omega
    have hunit : tokenWidth * (maxNoiseRun + 1) = 160 := rfl
    rw [blockOpensTo_append_iff hnonce htag]
    simp only [if_neg (Nat.not_lt.mpr hlen), hblob, hfront, List.take_left', List.drop_left',
      List.take_left' hnonce, List.drop_left' hnonce]
    by_cases hmod : masked.length % 160 = 0
    · rw [if_neg (by rw [hunit]; exact fun h => h hmod),
        computeAuthTag_append H kb nonce haad hnonce, ok_bind]
      by_cases htagEq : tag = (H kb (Rust.authTagInput aad nonce masked)).toList
      · have hmasked : masked.length < 2 ^ 36 := by
          simp only [List.length_append] at hct
          omega
        rw [if_neg (not_not.mpr htagEq), decrypt_masked_eq_ok_iff H kb nonce hkey masked hmasked,
          and_iff_right (by rw [htagEq]; exact Rust.hmacVerify_self H kb _)]
      · rw [if_pos htagEq]
        simp only [valueError, raise, reduceCtorEq, false_iff]
        intro h
        exact htagEq (by simpa [Rust.hmacVerify, Rust.ctEqBytes] using h.1)
    · rw [if_pos (by rw [hunit]; exact hmod)]
      simp only [valueError, raise, reduceCtorEq, false_iff]
      rintro ⟨-, b, cps, -, hlen', -⟩
      omega
  · simp only [if_pos (Nat.lt_of_not_le hlen), valueError, raise, reduceCtorEq, false_iff]
    exact fun h => hlen h.le_length

/-- A profile that gives a block size is one of the Rust port. -/
theorem exists_ofRust_of_paddingBucket {n b : Nat} {profile : PadProfile}
    (h : paddingBucket n profile = .ok b) : ∃ p, profile = .ofRust p := by
  cases profile with
  | bucket => exact ⟨.bucket, rfl⟩
  | coarse g =>
      rw [paddingBucket] at h
      split at h
      case isTrue => cases h
      case isFalse hg =>
        have hle : g ≤ 12 := by
          apply Nat.le_of_dvd (by decide)
          apply Nat.dvd_of_mod_eq_zero
          by_contra hmod
          exact hg (Or.inr hmod)
        refine ⟨.coarse (UInt32.ofNat g), ?_⟩
        rw [PadProfile.ofRust, UInt32.toNat_ofNat', Nat.mod_eq_of_lt (by omega)]
  | frame f =>
      obtain ⟨⟨e, -, he, rfl⟩, -, -⟩ := (paddingBucket_frame_eq_ok_iff f n b).mp h
      have hle : 2 ^ e ≤ 2 ^ 16 := Nat.pow_le_pow_right (by decide) he
      refine ⟨.frame (UInt32.ofNat (2 ^ e)), ?_⟩
      rw [PadProfile.ofRust, UInt32.toNat_ofNat', Nat.mod_eq_of_lt (by omega)]

theorem exists_ofRust_of_encryptBytesV8 {H : Hmac} {mathSqrt : Nat → Nat}
    {message primes : List Nat} {sk aad c : List UInt8} {profile : PadProfile}
    (h : encryptBytesV8 H mathSqrt message primes sk aad profile = .ok c) :
    ∃ p, profile = .ofRust p := by
  obtain ⟨_, -, h⟩ := bind_eq_ok.mp h
  split at h
  case isTrue => cases h
  case isFalse =>
    obtain ⟨_, -, h⟩ := bind_eq_ok.mp h
    obtain ⟨_, -, h⟩ := bind_eq_ok.mp h
    obtain ⟨nonce, -, h⟩ := bind_eq_ok.mp h
    obtain ⟨tokens, htokens, -⟩ := bind_eq_ok.mp h
    obtain ⟨padded, hpadded, -⟩ := bind_eq_ok.mp htokens
    rw [padMessage] at hpadded
    split at hpadded
    case isTrue => cases hpadded
    case isFalse =>
      obtain ⟨b, hb, -⟩ := bind_eq_ok.mp hpadded
      exact exists_ofRust_of_paddingBucket hb

end Napqes.Python
