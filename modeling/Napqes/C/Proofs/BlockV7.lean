import Napqes.C.BlockV7
import Napqes.C.Proofs.BlockDecrypt
import Napqes.Rust.Proofs.BlockV7

/-!
# Which keys the C v7 block functions can invert

`napqes_encrypt_bytes` takes any array of 64-bit words for a key. The addend of an element 1 is a
remainder by zero, the decryptor divides by an element 0, and a product `c * k` of `2^64` or more
reads back as a smaller value. For every other key the decryptor returns the message.
-/

namespace Napqes.C

open Schedule (Placed)

variable (H : Hmac) (noise : Rust.Noise) (key : List UInt64) (kb nonce : List UInt8)

/-- From every position on there is a position that is not noise. -/
def FiniteRuns : Prop := ∀ pos, ∃ i, isNoisePos noise kb nonce (pos + i) = false

/-- The word that carries codepoint `c` at real index `idx`. -/
def wordToken (idx c : Nat) : Nat := realToken H (primesNat key) kb nonce idx c % 2 ^ 64

/-- What the emission loop has written for `cps`: words that carry them, of which the last one is
not noise. -/
structure Emitted (idx pos : Nat) (cps slots : List Nat) : Prop where
  placed : Placed (isNoisePos noise kb nonce) (wordToken H key kb nonce) idx pos cps slots
  word : ∀ t ∈ slots, t < 2 ^ 64
  last : ∀ m, slots.length = m + 1 → isNoisePos noise kb nonce (pos + m) = false

variable {H noise key kb nonce}

/-! ## Encryption -/

/-- The five-byte position makes the noise predicate periodic, so a finite run is shorter than its
period. -/
theorem FiniteRuns.exists_lt (h : FiniteRuns noise kb nonce) (pos : Nat) :
    ∃ i < 2 ^ 40, isNoisePos noise kb nonce (pos + i) = false := by
  obtain ⟨i, hi⟩ := h pos
  refine ⟨i % 2 ^ 40, Nat.mod_lt _ (by decide), ?_⟩
  rw [isNoisePos, Nat.add_mod, Nat.mod_mod, ← Nat.add_mod]
  exact hi

/-- The loop for one codepoint reaches the next free position. -/
theorem emitCodepointV7_of_free (hne : key ≠ []) {idx : Nat}
    (hk : keyElem (primesNat key) idx ≠ 1) (c : Nat) {run pos i : Nat} (hrun : run + i < 2 ^ 40)
    (hfree : isNoisePos noise kb nonce (pos + i) = false) (buf : List UInt8) :
    ∃ slots, emitCodepointV7 H noise key kb nonce c idx run pos buf =
        .ok (buf ++ slots.flatMap (beBytes 8), pos + slots.length) ∧
      slots ≠ [] ∧ Emitted H noise key kb nonce idx pos [c] slots := by
  by_cases hpos : isNoisePos noise kb nonce pos = true
  · cases i with
    | zero =>
        rw [Nat.add_zero, hpos] at hfree
        cases hfree
    | succ i =>
        obtain ⟨slots, hemit, hnil, hslots⟩ := emitCodepointV7_of_free hne hk c
          (show run + 1 + i < 2 ^ 40 by omega)
          (show isNoisePos noise kb nonce (pos + 1 + i) = false by
            rw [Nat.add_right_comm]
            exact hfree)
          (buf ++ beBytes 8 (fillerToken H (primesNat key) kb nonce idx pos))
        refine ⟨fillerToken H (primesNat key) kb nonce idx pos % 2 ^ 64 :: slots, ?_, by simp,
          ⟨.noise _ hpos hslots.placed, ?_, ?_⟩⟩
        · rw [emitCodepointV7, keyAt_of_ne_nil hne, ok_bind, if_pos hpos,
            noiseTokenBytes_of_ne_one H kb nonce hk, ok_bind, dif_pos (by omega), hemit,
            List.flatMap_cons, beBytes_mod_word, List.append_assoc, List.length_cons,
            Nat.add_comm slots.length, Nat.add_assoc]
        · exact List.forall_mem_cons.mpr ⟨Nat.mod_lt _ (by decide), hslots.word⟩
        · intro m hm
          obtain ⟨m', rfl⟩ : ∃ m', m = m' + 1 := ⟨m - 1, by
            have := List.length_pos_iff.mpr hnil
            rw [List.length_cons] at hm
            omega⟩
          rw [Nat.add_comm m', ← Nat.add_assoc]
          exact hslots.last m' (by simpa using hm)
  · have hfree : isNoisePos noise kb nonce pos = false := by simpa using hpos
    refine ⟨[wordToken H key kb nonce idx c], ?_, by simp, ⟨.item c hfree (.nil _ _), ?_, ?_⟩⟩
    · rw [emitCodepointV7, keyAt_of_ne_nil hne, ok_bind, if_neg hpos,
        deriveAddend_of_ne_one H kb nonce hk, ok_bind, fixedEncode_eq, List.flatMap_singleton,
        wordToken, beBytes_mod_word]
      rfl
    · exact List.forall_mem_singleton.mpr (Nat.mod_lt _ (by decide))
    · intro m hm
      rw [show m = 0 by simpa using hm.symm]
      exact hfree
termination_by i

theorem Emitted.append {idx pos : Nat} {cps cps' slots slots' : List Nat}
    (h : Emitted H noise key kb nonce idx pos cps slots)
    (h' : Emitted H noise key kb nonce (idx + cps.length) (pos + slots.length) cps' slots') :
    Emitted H noise key kb nonce idx pos (cps ++ cps') (slots ++ slots') where
  placed := h.placed.append h'.placed
  word := List.forall_mem_append.mpr ⟨h.word, h'.word⟩
  last m hm := by
    cases slots' with
    | nil =>
        rw [List.append_nil] at hm
        exact h.last m hm
    | cons t slots' =>
        rw [List.length_append, List.length_cons] at hm
        have hlast := h'.last slots'.length List.length_cons
        rwa [show m = slots.length + slots'.length by omega, ← Nat.add_assoc]

/-- The loop over the codepoints ends when no element it uses is 1. -/
theorem emitCodepointsV7_of_ne_one (hne : key ≠ []) (hfin : FiniteRuns noise kb nonce)
    {cps : List Nat} {idx : Nat} (hk : ∀ i < cps.length, keyElem (primesNat key) (idx + i) ≠ 1)
    (pos : Nat) (buf : List UInt8) :
    ∃ slots, emitCodepointsV7 H noise key kb nonce cps idx pos buf =
        .ok (buf ++ slots.flatMap (beBytes 8)) ∧
      Emitted H noise key kb nonce idx pos cps slots := by
  induction cps generalizing idx pos buf with
  | nil => exact ⟨[], by simp [emitCodepointsV7, pure, Except.pure], .nil _ _, by simp, by simp⟩
  | cons c cps ih =>
      obtain ⟨i, hi, hfree⟩ := hfin.exists_lt pos
      have hfirst : keyElem (primesNat key) idx ≠ 1 := hk 0 (Nat.zero_lt_succ _)
      obtain ⟨slots, hemit, -, hslots⟩ := emitCodepointV7_of_free (H := H) hne hfirst c
        (by rw [Nat.zero_add]; exact hi) hfree buf
      have hk' : ∀ i < cps.length, keyElem (primesNat key) (idx + 1 + i) ≠ 1 := by
        intro i hi
        rw [Nat.add_assoc, Nat.add_comm 1]
        exact hk (i + 1) (Nat.succ_lt_succ hi)
      obtain ⟨slots', hrest, hslots'⟩ := ih hk' (pos + slots.length)
        (buf ++ slots.flatMap (beBytes 8))
      refine ⟨slots ++ slots', ?_, hslots.append hslots'⟩
      rw [emitCodepointsV7, hemit, ok_bind]
      dsimp only
      rw [hrest, List.flatMap_append, List.append_assoc]

/-- An element 1 has no addend, neither for a codepoint nor for noise. -/
theorem emitCodepointV7_of_one (hne : key ≠ []) {idx : Nat}
    (hk : keyElem (primesNat key) idx = 1) (c run pos : Nat) (buf : List UInt8) :
    emitCodepointV7 H noise key kb nonce c idx run pos buf =
      .error (.undefined "remainder by zero") := by
  rw [emitCodepointV7, keyAt_of_ne_nil hne, ok_bind, hk]
  split
  case isTrue => rfl
  case isFalse => rfl

/-- The loop over the codepoints has no defined result when an element it uses is 1. -/
theorem emitCodepointsV7_of_one (hne : key ≠ []) (hfin : FiniteRuns noise kb nonce)
    {cps : List Nat} {idx i : Nat} (hi : i < cps.length)
    (hk : keyElem (primesNat key) (idx + i) = 1) (pos : Nat) (buf : List UInt8) :
    emitCodepointsV7 H noise key kb nonce cps idx pos buf =
      .error (.undefined "remainder by zero") := by
  induction cps generalizing idx i pos buf with
  | nil => cases hi
  | cons c cps ih =>
      rw [emitCodepointsV7]
      by_cases hfirst : keyElem (primesNat key) idx = 1
      · rw [emitCodepointV7_of_one hne hfirst, error_bind]
      · cases i with
        | zero => exact absurd hk hfirst
        | succ i =>
            obtain ⟨j, hj, hfree⟩ := hfin.exists_lt pos
            obtain ⟨slots, hemit, -⟩ := emitCodepointV7_of_free (H := H) hne hfirst c
              (by rw [Nat.zero_add]; exact hj) hfree buf
            rw [hemit, ok_bind]
            apply ih (Nat.lt_of_succ_lt_succ hi)
            rwa [Nat.add_assoc, Nat.add_comm 1]

/-! ## Decryption -/

/-- What `c` reads back as under the element `k`: the product has wrapped before the division. -/
def readBack (k c : Nat) : Nat := c * k % 2 ^ 64 / k % 2 ^ 32

theorem readBack_le {k c : Nat} (hk : 0 < k) : readBack k c ≤ c := by
  calc readBack k c ≤ c * k % 2 ^ 64 / k := Nat.mod_le _ _
    _ ≤ c * k / k := Nat.div_le_div_right (Nat.mod_le _ _)
    _ = c := Nat.mul_div_cancel c hk

/-- A codepoint reads back exactly when its product is a word. -/
theorem readBack_eq_iff {k c : Nat} (hk : 0 < k) (hc : c < 2 ^ 32) :
    readBack k c = c ↔ c * k < 2 ^ 64 := by
  constructor
  · intro h
    by_contra hge
    have hwrap : c * k % 2 ^ 64 < k * c := by
      have := Nat.mod_lt (c * k) (show 0 < 2 ^ 64 by decide)
      rw [Nat.mul_comm k]
      omega
    have hlt : readBack k c < c :=
      Nat.lt_of_le_of_lt (Nat.mod_le _ _) (Nat.div_lt_of_lt_mul hwrap)
    omega
  · intro h
    rw [readBack, Nat.mod_eq_of_lt h, Nat.mul_div_cancel c hk, Nat.mod_eq_of_lt hc]

/-- The quotient the decryptor forms from the word of a codepoint. -/
theorem recoverV7_wordToken {idx c : Nat} (hk : 2 ≤ keyElem (primesNat key) idx) :
    recoverV7 (wordToken H key kb nonce idx c) (realAddend H (primesNat key) kb nonce idx)
      (keyElem (primesNat key) idx) = .ok (readBack (keyElem (primesNat key) idx) c) := by
  have haddend : realAddend H (primesNat key) kb nonce idx < 2 ^ 64 :=
    Nat.lt_trans (Rust.addendVal_lt _ hk) (keyElem_lt key idx)
  rw [recoverV7, if_neg (by omega), readBack, wordToken, realToken]
  generalize realAddend H (primesNat key) kb nonce idx = a at *
  generalize keyElem (primesNat key) idx = k at *
  rw [show ((c * k + a) % 2 ^ 64 + 2 ^ 64 - a) % 2 ^ 64 = c * k % 2 ^ 64 by
    generalize c * k = p
    omega]

/-- The decryptor's loop over words that carry `cps`. -/
theorem decryptTokensV7_of_placed (hne : key ≠ []) {idx pos : Nat} {cps slots : List Nat}
    (h : Placed (isNoisePos noise kb nonce) (wordToken H key kb nonce) idx pos cps slots)
    (hk : ∀ i < cps.length, 2 ≤ keyElem (primesNat key) (idx + i)) (acc : List Nat) :
    decryptTokensV7 H noise key kb nonce slots pos idx acc =
      .ok (acc ++ cps.mapIdx fun i c => readBack (keyElem (primesNat key) (idx + i)) c) := by
  induction h generalizing acc with
  | nil idx pos => rw [List.mapIdx_nil, List.append_nil]; rfl
  | @noise idx pos cps slots t hpos _ ih =>
      rw [decryptTokensV7, hpos]
      exact ih hk acc
  | @item idx pos cps slots c hpos _ ih =>
      have hfirst : 2 ≤ keyElem (primesNat key) idx := hk 0 (Nat.zero_lt_succ _)
      have hrest : ∀ i < cps.length, 2 ≤ keyElem (primesNat key) (idx + 1 + i) := by
        intro i hi
        rw [Nat.add_assoc, Nat.add_comm 1]
        exact hk (i + 1) (Nat.succ_lt_succ hi)
      rw [decryptTokensV7, hpos, Bool.not_false, if_pos rfl, keyAt_of_ne_nil hne, ok_bind,
        deriveAddend_of_ne_one H kb nonce (by omega), ok_bind, recoverV7_wordToken hfirst, ok_bind,
        ih hrest, List.mapIdx_cons, List.append_assoc]
      simp only [List.cons_append, List.nil_append, Nat.add_zero, Nat.add_assoc, Nat.add_comm 1]

/-- The decryptor divides by an element 0 that it comes to. -/
theorem decryptTokensV7_of_zero (hne : key ≠ []) {idx pos : Nat} {cps slots : List Nat}
    (h : Placed (isNoisePos noise kb nonce) (wordToken H key kb nonce) idx pos cps slots)
    (hk : ∀ i < cps.length, keyElem (primesNat key) (idx + i) ≠ 1) {i : Nat} (hi : i < cps.length)
    (hzero : keyElem (primesNat key) (idx + i) = 0) (acc : List Nat) :
    decryptTokensV7 H noise key kb nonce slots pos idx acc =
      .error (.undefined "division by zero") := by
  induction h generalizing i acc with
  | nil idx pos => cases hi
  | @noise idx pos cps slots t hpos _ ih =>
      rw [decryptTokensV7, hpos]
      exact ih hk hi hzero acc
  | @item idx pos cps slots c hpos _ ih =>
      have hfirst : keyElem (primesNat key) idx ≠ 1 := hk 0 (Nat.zero_lt_succ _)
      rw [decryptTokensV7, hpos, Bool.not_false, if_pos rfl, keyAt_of_ne_nil hne, ok_bind,
        deriveAddend_of_ne_one H kb nonce hfirst, ok_bind]
      by_cases hnow : keyElem (primesNat key) idx = 0
      · rw [recoverV7, if_pos hnow, error_bind]
      · rw [recoverV7_wordToken (by omega), ok_bind]
        cases i with
        | zero => exact absurd hzero hnow
        | succ i =>
            apply ih _ (Nat.lt_of_succ_lt_succ hi)
            · rwa [Nat.add_assoc, Nat.add_comm 1]
            · intro j hj
              rw [Nat.add_assoc, Nat.add_comm 1]
              exact hk (j + 1) (Nat.succ_lt_succ hj)

theorem map_fixedDecode_range (blob : List UInt8) :
    ((List.range (blob.length / tokenWidth)).map fun i =>
      fixedDecode (blob.drop (i * tokenWidth))) = blobTokens blob := by
  apply List.ext_getElem?
  intro i
  by_cases hi : i < blob.length / tokenWidth
  · rw [List.getElem?_map, List.getElem?_range hi, Option.map_some, getElem?_blobTokens hi]
  · rw [List.getElem?_eq_none (by simpa using Nat.le_of_not_lt hi),
      List.getElem?_eq_none (by rw [length_blobTokens]; exact Nat.le_of_not_lt hi)]

/-- The core reads the words that were written. -/
theorem decryptCore_flatMap (hne : key ≠ []) {slots : List Nat} (hword : ∀ t ∈ slots, t < 2 ^ 64)
    (nonce : List UInt8) :
    decryptCore H noise (slots.flatMap (beBytes 8)) nonce key = (do
      unpadV7 (← decryptTokensV7 H noise key (keyBytes key) nonce slots 0 0 [])) := by
  have htokens : blobTokens (slots.flatMap (beBytes 8)) = slots := by
    rw [blobTokens, length_flatMap_beBytes, Nat.mul_div_cancel _ (by decide)]
    exact map_beNat_chunksExact 8 slots hword
  rw [decryptCore, if_neg fun h => hne (List.length_eq_zero_iff.mp h),
    if_neg (by rw [length_flatMap_beBytes, tokenWidth, Nat.mul_mod_left]; decide)]
  dsimp only
  rw [map_fixedDecode_range, htokens]

/-! ## Keystream -/

/-- A 32-bit block counter that has to count further never ends. -/
theorem varintKeystreamLoop_diverges {nBlocks : Nat} (hn : 2 ^ 32 ≤ nBlocks) {b : Nat}
    (hb : b < 2 ^ 32) (ks : List UInt8) :
    varintKeystreamLoop H kb nonce nBlocks b ks = .error .diverges := by
  induction hrest : 2 ^ 32 - b generalizing b ks with
  | zero => omega
  | succ rest ih =>
      rw [varintKeystreamLoop, if_pos (by omega)]
      by_cases hlast : b + 1 < 2 ^ 32
      · rw [if_pos hlast]
        exact ih hlast _ (by omega)
      · rw [if_neg hlast]

theorem varintKeystreamAlloc_diverges {length : Nat} (h : 32 * (2 ^ 32 - 1) < length) :
    varintKeystreamAlloc H kb nonce length = .error .diverges := by
  rw [varintKeystreamAlloc, if_neg (by omega)]
  exact varintKeystreamLoop_diverges (by omega) (by decide) []

/-! ## Whole ciphertexts -/

/-- The decryptor on a byte string of at least a nonce and a tag. -/
theorem napqesDecryptBytes_append {nonce masked tag aad : List UInt8}
    (hnonce : nonce.length = nonceSize) (htag : tag.length = tagSize) :
    napqesDecryptBytes H noise (nonce ++ masked ++ tag) key aad =
      if tag = (computeAuthTag H (keyBytes key) aad (nonce ++ masked) aadLenWidthV7).toList then
        if masked.length ≤ 32 * (2 ^ 32 - 1) then (do
          let cp ← decryptCore H noise (maskWith H (keyBytes key) nonce masked) nonce key
          return cp.map lowByte ++ [0])
        else .error .diverges
      else null := by
  have htotal : (nonce ++ masked ++ tag).length = 16 + masked.length + 32 := by
    rw [List.length_append, List.length_append, hnonce, htag]
  have hpayload : (nonce ++ masked ++ tag).length - tagSize = (nonce ++ masked).length := by
    rw [htotal, List.length_append, hnonce, tagSize, nonceSize]
    omega
  have hcompare : constantTimeEq tag
      (computeAuthTag H (keyBytes key) aad (nonce ++ masked) aadLenWidthV7).toList tagSize =
        decide (tag = (computeAuthTag H (keyBytes key) aad (nonce ++ masked)
          aadLenWidthV7).toList) := by
    rw [computeAuthTag, constantTimeEq_tag htag, Rust.hmacVerify, Rust.ctEqBytes, beq_eq_decide]
  rw [napqesDecryptBytes, if_neg (by rw [htotal]; omega),
    if_neg (by rw [htotal, nonceSize, tagSize]; omega)]
  dsimp only
  rw [hpayload, List.take_left' rfl, List.drop_left' rfl, hcompare]
  by_cases hok : tag = (computeAuthTag H (keyBytes key) aad (nonce ++ masked) aadLenWidthV7).toList
  · rw [if_neg (by simpa using hok), if_pos hok, List.append_assoc, List.take_left' hnonce,
      List.drop_left' hnonce]
    by_cases hlen : masked.length ≤ 32 * (2 ^ 32 - 1)
    · obtain ⟨ks, hks, hmask⟩ := exists_varintKeystreamAlloc H (keyBytes key) nonce masked hlen
      rw [if_pos hlen, hks, ok_bind, hmask]
    · rw [if_neg hlen, varintKeystreamAlloc_diverges (Nat.lt_of_not_le hlen), error_bind]
  · rw [if_pos (by simpa using hok), if_neg hok]

/-! ## Messages -/

/-- The codepoints that have to come back: the two of the length and those of the message. -/
def prefixed (message : List UInt8) : List Nat :=
  [(message.length >>> 8) &&& 0xFF, message.length &&& 0xFF] ++ message.map UInt8.toNat

theorem forall_prefixed_iff {P : Nat → Nat → Prop} (message : List UInt8) :
    (∀ i c, (prefixed message)[i]? = some c → P i c) ↔
      P 0 ((message.length >>> 8) &&& 0xFF) ∧ P 1 (message.length &&& 0xFF) ∧
        ∀ i c, (message.map UInt8.toNat)[i]? = some c → P (i + 2) c := by
  constructor
  · exact fun h => ⟨h 0 _ rfl, h 1 _ rfl, fun i c hc => h (i + 2) c hc⟩
  · rintro ⟨hhi, hlo, hmsg⟩ i c hc
    match i, hc with
    | 0, hc =>
        cases hc
        exact hhi
    | 1, hc =>
        cases hc
        exact hlo
    | i + 2, hc => exact hmsg i c hc

/-- A list of values below 256 that its low bytes determine. -/
theorem map_lowByte_eq_iff {cps : List Nat} {message : List UInt8} (h : ∀ c ∈ cps, c < 256) :
    cps.map lowByte = message ↔ cps = message.map UInt8.toNat := by
  have hbytes : (cps.map lowByte).map UInt8.toNat = cps := by
    rw [List.map_map]
    conv_rhs => rw [← List.map_id cps]
    apply List.map_congr_left
    intro c hc
    rw [Function.comp_apply, lowByte_eq, UInt8.toNat_ofNat', Nat.mod_eq_of_lt (h c hc), id]
  constructor
  · rintro rfl
    exact hbytes.symm
  · intro hcps
    apply List.map_injective_iff.mpr (fun _ _ => UInt8.toNat_inj.mp)
    rw [hbytes, hcps]

theorem mapIdx_eq_self_iff {cps : List Nat} {g : Nat → Nat → Nat} :
    cps.mapIdx g = cps ↔ ∀ i c, cps[i]? = some c → g i c = c := by
  constructor
  · intro h i c hc
    have hi := congrArg (·[i]?) h
    simpa only [List.getElem?_mapIdx, hc, Option.map_some, Option.some.injEq] using hi
  · intro h
    apply List.ext_getElem?
    intro i
    rw [List.getElem?_mapIdx]
    cases hc : cps[i]? with
    | none => rfl
    | some c => rw [Option.map_some, h i c hc]

/-- Values that do not grow come back from the unpadding as the message exactly when those of the
length and of the message are unchanged. -/
theorem unpadV7_mapIdx {message : List UInt8} (hlen : message.length ≤ 0xFFFF) (pads : List Nat)
    {f : Nat → Nat → Nat} (hf : ∀ i < message.length + pads.length + 2, ∀ c, f i c ≤ c) :
    (do
      let cp ← unpadV7 ((prefixed message ++ pads).mapIdx f)
      return cp.map lowByte ++ [0]) = (.ok (message ++ [0]) : CM (List UInt8)) ↔
      ∀ i c, (prefixed message)[i]? = some c → f i c = c := by
  have hdigits : ∀ a b : Nat, b < 256 → a <<< 8 ||| b = a * 256 + b := fun a b hb =>
    @shiftLeft_or_eq a b 8 hb
  have hlo : message.length &&& 0xFF < 256 := Nat.lt_of_le_of_lt Nat.and_le_right (by decide)
  have hn := (hdigits _ _ hlo).symm.trans (Rust.lengthPrefix_eq hlen)
  rw [forall_prefixed_iff, ← mapIdx_eq_self_iff, prefixed]
  generalize (message.length >>> 8) &&& 0xFF = hi at *
  generalize message.length &&& 0xFF = lo at *
  have hflo : f 1 lo ≤ lo := hf 1 (by omega) lo
  have hfhi : f 0 hi ≤ hi := hf 0 (by omega) hi
  have hcons : ([hi, lo] ++ message.map UInt8.toNat ++ pads).mapIdx f =
      f 0 hi :: f 1 lo :: (message.map UInt8.toNat ++ pads).mapIdx fun i c => f (i + 2) c := by
    rw [List.append_assoc, List.cons_append, List.mapIdx_cons, List.cons_append, List.mapIdx_cons,
      List.nil_append]
  have hbyte : ∀ c ∈ (message.map UInt8.toNat).mapIdx fun i c => f (i + 2) c, c < 256 := by
    intro c hc
    obtain ⟨i, hi, rfl⟩ := List.mem_mapIdx.mp hc
    rw [List.length_map] at hi
    rw [List.getElem_map]
    exact Nat.lt_of_le_of_lt (hf (i + 2) (by omega) _) (UInt8.toNat_lt _)
  have htake : ((message.map UInt8.toNat ++ pads).mapIdx fun i c => f (i + 2) c).take
      message.length = (message.map UInt8.toNat).mapIdx fun i c => f (i + 2) c := by
    rw [List.mapIdx_append, List.take_left' (by simp)]
  have hrestlen : ((message.map UInt8.toNat ++ pads).mapIdx fun i c => f (i + 2) c).length =
      message.length + pads.length := by simp
  generalize ((message.map UInt8.toNat ++ pads).mapIdx fun i c => f (i + 2) c) = rest at *
  -- The recovered length has two digits in base 256, each no larger than before.
  rw [hcons, unpadV7, hdigits _ _ (by omega), if_neg (by omega), ok_bind]
  constructor
  · intro h
    have hbuf : (rest.take (f 0 hi * 256 + f 1 lo)).map lowByte = message :=
      List.append_cancel_right (Except.ok.inj h)
    have hcount := congrArg List.length hbuf
    rw [List.length_map, List.length_take] at hcount
    rw [Nat.min_eq_left (by omega)] at hcount
    rw [hcount, htake, map_lowByte_eq_iff hbyte] at hbuf
    exact ⟨by omega, by omega, hbuf⟩
  · rintro ⟨hhi, hlo, hmsg⟩
    rw [hhi, hlo, hn, htake, (map_lowByte_eq_iff hbyte).mpr hmsg]
    rfl

/-! ## Keys that can be inverted -/

section
variable (H noise) (message : List UInt8) (key : List UInt64) (aad : List UInt8)
  (nonce : FixedBytes nonceSize)

/-- The encryptor refuses the message, or returns a ciphertext that the decryptor turns back into
it. -/
def RoundTripsV7 : Prop :=
  napqesEncryptBytes H noise (message ++ [0]) key aad nonce = null ∨
    ∃ ciphertext, napqesEncryptBytes H noise (message ++ [0]) key aad nonce = .ok ciphertext ∧
      napqesDecryptBytes H noise ciphertext key aad = .ok (message ++ [0])

/-- The number of codepoints of the padded message. -/
def paddedCount : Nat := paddingBlockSize message.length none + 2

/-- What the key, the message and the noise positions have to satisfy. -/
structure InvertibleV7 : Prop where
  /-- Neither 0 nor 1 is used. -/
  usable : ∀ i < paddedCount message, 2 ≤ keyElem (primesNat key) i
  /-- No product that has to come back wraps. -/
  fits : ∀ i c, (prefixed message)[i]? = some c → c * keyElem (primesNat key) i < 2 ^ 64
  /-- The tokens fit the `2^32 - 1` blocks that the keystream loop can count. -/
  reach : paddedCount message ≤
    Nat.count (fun pos => isNoisePos noise (keyBytes key) nonce pos = false) (2 ^ 34 - 4)

end

variable {message aad : List UInt8} {nonce : FixedBytes nonceSize}

theorem paddingBlockSize_none {n : Nat} (h : n ≤ 0xFFFF) :
    paddingBlockSize n none = Rust.bucketBlockSize n ∧ n < Rust.bucketBlockSize n := by
  refine ⟨?_, (Rust.bucketBlockSize_spec h).2⟩
  rw [paddingBlockSize_eq (Nat.lt_of_le_of_lt h (by decide)), PadProfile.toRust,
    Rust.PadProfile.blockSize,
    if_neg (Nat.not_le.mpr (Nat.lt_of_le_of_lt h (by decide)))]
  rfl

/-- The padded message is what has to come back and then the padding. -/
theorem padMessage_prefixed (hlen : message.length ≤ 0xFFFF) (kb nonce : List UInt8) :
    ∃ pads, message.length + pads.length + 2 = paddedCount message ∧
      padMessage H (message.map UInt8.toNat) kb nonce (paddingBlockSize message.length none) =
        .ok (prefixed message ++ pads) := by
  obtain ⟨hblock, hlt⟩ := paddingBlockSize_none hlen
  refine ⟨(List.range (Rust.bucketBlockSize message.length - message.length)).map
    (Rust.derivePadChar H kb nonce), ?_, ?_⟩
  · rw [List.length_map, List.length_range, paddedCount, hblock]
    omega
  · rw [hblock, padMessage_eq_ok kb nonce (by rwa [List.length_map]) (by rwa [List.length_map]),
      Rust.padded, List.length_map]
    rfl

/-- Masking and tagging of a token blob. -/
def sealBlobV7 (H : Hmac) (key : List UInt64) (aad : List UInt8) (nonce : FixedBytes nonceSize)
    (blob : List UInt8) : List UInt8 :=
  let payload := nonce.toList ++ maskWith H (keyBytes key) nonce blob
  payload ++ (computeAuthTag H (keyBytes key) aad payload aadLenWidthV7).toList

variable (H noise aad nonce)

/-- The encryptor on a message between 1 and 65535 bytes, after the padding. -/
theorem napqesEncryptBytes_eq (hne : key ≠ []) (hpos : 0 < message.length)
    (hlen : message.length ≤ 0xFFFF) (hnul : ∀ b ∈ message, b ≠ 0) :
    ∃ pads, message.length + pads.length + 2 = paddedCount message ∧
      napqesEncryptBytes H noise (message ++ [0]) key aad nonce = (do
        let blob ← emitCodepointsV7 H noise key (keyBytes key) nonce (prefixed message ++ pads)
          0 0 []
        if blob.length ≤ 32 * (2 ^ 32 - 1) then .ok (sealBlobV7 H key aad nonce blob)
        else .error .diverges) := by
  obtain ⟨pads, hpads, hpad⟩ := @padMessage_prefixed H message hlen (keyBytes key) nonce
  refine ⟨pads, hpads, ?_⟩
  rw [napqesEncryptBytes, strlen_append hnul, ok_bind, if_neg (by omega), if_neg (by omega),
    List.take_left' rfl]
  dsimp only
  rw [encryptCoreDet, if_neg fun h => hne (List.length_eq_zero_iff.mp h), List.length_map]
  dsimp only
  rw [hpad, ok_bind]
  congr 1
  funext blob
  by_cases hblob : blob.length ≤ 32 * (2 ^ 32 - 1)
  · obtain ⟨ks, hks, hmask⟩ := exists_varintKeystreamAlloc H (keyBytes key) nonce blob hblob
    rw [if_pos hblob, hks, ok_bind, hmask]
    rfl
  · rw [if_neg hblob, varintKeystreamAlloc_diverges (Nat.lt_of_not_le hblob), error_bind]

/-- The decryptor on what the encryptor has sealed. -/
theorem napqesDecryptBytes_sealBlobV7 {blob : List UInt8} (hlen : blob.length ≤ 32 * (2 ^ 32 - 1)) :
    napqesDecryptBytes H noise (sealBlobV7 H key aad nonce blob) key aad = (do
      let cp ← decryptCore H noise blob nonce key
      return cp.map lowByte ++ [0]) := by
  rw [sealBlobV7, napqesDecryptBytes_append nonce.length_toList (FixedBytes.length_toList _),
    if_pos rfl, if_pos (by rwa [length_maskWith]), maskWith_maskWith]

variable {H noise aad nonce}

theorem length_prefixed_append {pads : List Nat}
    (h : message.length + pads.length + 2 = paddedCount message) :
    (prefixed message ++ pads).length = paddedCount message := by
  rw [← h, prefixed, List.length_append, List.length_append, List.length_map, List.length_cons,
    List.length_cons, List.length_nil]
  omega

/-- The blob of the emitted words is in reach of the keystream exactly when enough positions are
free. -/
theorem reach_iff {cps slots : List Nat} {n : Nat} (hn : cps.length = n)
    (h : Emitted H noise key kb nonce 0 0 cps slots) :
    (slots.flatMap (beBytes 8)).length ≤ 32 * (2 ^ 32 - 1) ↔
      n ≤ Nat.count (fun pos => isNoisePos noise kb nonce pos = false) (2 ^ 34 - 4) := by
  have hlast : ∀ m, slots.length = m + 1 → isNoisePos noise kb nonce m = false := by
    intro m hm
    rw [← Nat.zero_add m]
    exact h.last m hm
  rw [← hn, ← h.placed.length_le_iff hlast, length_flatMap_beBytes]
  omega

/-- Reading back what was emitted under elements of at least 2. -/
theorem decryptCore_of_emitted (hne : key ≠ []) {slots pads : List Nat}
    (hlen : message.length ≤ 0xFFFF)
    (hpads : message.length + pads.length + 2 = paddedCount message)
    (h : Emitted H noise key (keyBytes key) nonce 0 0 (prefixed message ++ pads) slots)
    (husable : ∀ i < paddedCount message, 2 ≤ keyElem (primesNat key) i) :
    (do
      let cp ← decryptCore H noise (slots.flatMap (beBytes 8)) nonce key
      return cp.map lowByte ++ [0]) = (.ok (message ++ [0]) : CM (List UInt8)) ↔
      ∀ i c, (prefixed message)[i]? = some c → c * keyElem (primesNat key) i < 2 ^ 64 := by
  have hread := decryptTokensV7_of_placed hne h.placed
    (fun i hi => by
      rw [length_prefixed_append hpads] at hi
      rw [Nat.zero_add]
      exact husable i hi) []
  rw [decryptCore_flatMap hne h.word, hread, ok_bind, List.nil_append]
  simp only [Nat.zero_add]
  rw [unpadV7_mapIdx hlen pads fun i hi c => readBack_le (by have := husable i (by omega); omega)]
  have hbyte : ∀ i c : Nat, (prefixed message)[i]? = some c → c < 256 := by
    rw [forall_prefixed_iff]
    refine ⟨Nat.lt_of_le_of_lt Nat.and_le_right (by decide),
      Nat.lt_of_le_of_lt Nat.and_le_right (by decide), fun i c hc => ?_⟩
    obtain ⟨b, -, rfl⟩ := List.mem_map.mp (List.mem_of_getElem? hc)
    exact b.toNat_lt
  have hcount : ∀ i c : Nat, (prefixed message)[i]? = some c → i < paddedCount message := by
    intro i c hc
    obtain ⟨hi, -⟩ := List.getElem?_eq_some_iff.mp hc
    have := length_prefixed_append hpads
    rw [List.length_append] at this
    omega
  have hiff : ∀ i c, (prefixed message)[i]? = some c →
      (readBack (keyElem (primesNat key) i) c = c ↔ c * keyElem (primesNat key) i < 2 ^ 64) := by
    intro i c hc
    have hk := husable i (hcount i c hc)
    have hc' := hbyte i c hc
    exact readBack_eq_iff (by omega) (by omega)
  exact ⟨fun h i c hc => (hiff i c hc).mp (h i c hc), fun h i c hc => (hiff i c hc).mpr (h i c hc)⟩

/-- A key that satisfies the condition is inverted. -/
theorem exists_roundTrip_of_invertible (hne : key ≠ [])
    (hfin : FiniteRuns noise (keyBytes key) nonce) (hpos : 0 < message.length)
    (hlen : message.length ≤ 0xFFFF) (hnul : ∀ b ∈ message, b ≠ 0)
    (h : InvertibleV7 noise message key nonce) :
    ∃ ciphertext, napqesEncryptBytes H noise (message ++ [0]) key aad nonce = .ok ciphertext ∧
      napqesDecryptBytes H noise ciphertext key aad = .ok (message ++ [0]) := by
  obtain ⟨pads, hpads, henc⟩ := napqesEncryptBytes_eq H noise aad nonce hne hpos hlen hnul
  have hcount := length_prefixed_append hpads
  obtain ⟨slots, hemit, hslots⟩ := @emitCodepointsV7_of_ne_one H noise key _ _ hne hfin
    (prefixed message ++ pads) 0 (fun i hi => by
      have := h.usable i (by omega)
      rw [Nat.zero_add]
      omega) 0 []
  rw [hemit, ok_bind, List.nil_append] at henc
  have hreach := (reach_iff hcount hslots).mpr h.reach
  rw [if_pos hreach] at henc
  refine ⟨_, henc, ?_⟩
  rw [napqesDecryptBytes_sealBlobV7 H noise aad nonce hreach,
    decryptCore_of_emitted hne hlen hpads hslots h.usable]
  exact h.fits

/-- A message that comes back shows the condition on its key. -/
theorem invertibleV7_of_roundTrips (hne : key ≠ [])
    (hfin : FiniteRuns noise (keyBytes key) nonce) (hpos : 0 < message.length)
    (hlen : message.length ≤ 0xFFFF) (hnul : ∀ b ∈ message, b ≠ 0)
    (h : RoundTripsV7 H noise message key aad nonce) : InvertibleV7 noise message key nonce := by
  obtain ⟨pads, hpads, henc⟩ := napqesEncryptBytes_eq H noise aad nonce hne hpos hlen hnul
  have hcount := length_prefixed_append hpads
  -- With an element 1 the encryptor would have no defined result.
  have hone : ∀ i < (prefixed message ++ pads).length, keyElem (primesNat key) (0 + i) ≠ 1 := by
    intro i hi hone
    rw [RoundTripsV7, henc, emitCodepointsV7_of_one hne hfin hi hone, error_bind] at h
    rcases h with h | ⟨c, h, -⟩ <;> cases h
  obtain ⟨slots, hemit, hslots⟩ := emitCodepointsV7_of_ne_one hne hfin hone 0 []
  rw [hemit, ok_bind, List.nil_append] at henc
  -- With too many tokens it would not end.
  have hreach : (slots.flatMap (beBytes 8)).length ≤ 32 * (2 ^ 32 - 1) := by
    by_contra hlong
    rw [RoundTripsV7, henc, if_neg hlong] at h
    rcases h with h | ⟨c, h, -⟩ <;> cases h
  rw [if_pos hreach] at henc
  have hdec : napqesDecryptBytes H noise (sealBlobV7 H key aad nonce (slots.flatMap (beBytes 8)))
      key aad = .ok (message ++ [0]) := by
    rcases h with h | ⟨c, h, hdec⟩
    · rw [henc] at h
      cases h
    · rw [henc] at h
      cases h
      exact hdec
  rw [napqesDecryptBytes_sealBlobV7 H noise aad nonce hreach] at hdec
  -- With an element 0 the decryptor would have no defined result.
  have husable : ∀ i < paddedCount message, 2 ≤ keyElem (primesNat key) i := by
    intro i hi
    rw [← hcount] at hi
    by_contra hsmall
    have hne1 := hone i hi
    have hzero : keyElem (primesNat key) (0 + i) = 0 := by
      rw [Nat.zero_add] at hne1 ⊢
      omega
    rw [decryptCore_flatMap hne hslots.word,
      decryptTokensV7_of_zero hne hslots.placed hone hi hzero, error_bind, error_bind] at hdec
    cases hdec
  exact ⟨husable, (decryptCore_of_emitted hne hlen hpads hslots husable).mp hdec,
    (reach_iff hcount hslots).mp hreach⟩

/-- The v7 entry points take a message there and back exactly for the keys, messages and noise
positions of `InvertibleV7`. -/
theorem roundTripsV7_iff (hne : key ≠ []) (hfin : FiniteRuns noise (keyBytes key) nonce)
    (hpos : 0 < message.length) (hlen : message.length ≤ 0xFFFF) (hnul : ∀ b ∈ message, b ≠ 0) :
    RoundTripsV7 H noise message key aad nonce ↔ InvertibleV7 noise message key nonce :=
  ⟨invertibleV7_of_roundTrips hne hfin hpos hlen hnul,
    fun h => .inr (exists_roundTrip_of_invertible hne hfin hpos hlen hnul h)⟩

theorem invertibleV7_one_byte :
    InvertibleV7 (fun _ _ _ => false) [65] [1000003] (.ofList 16 []) := by
  have hcount : paddedCount [65] ≤ 2 ^ 34 - 4 := by
    have hle := (Rust.bucketBlockSize_spec (show 1 ≤ Rust.maxPlaintextCodepoints by decide)).1.le
    rw [paddedCount, List.length_singleton, (paddingBlockSize_none (by decide)).1]
    omega
  have helem : ∀ i, keyElem (primesNat [1000003]) i = 1000003 := fun i => by
    rw [keyElem, show (primesNat [1000003]).length = 1 from rfl, Nat.mod_one]
    rfl
  refine ⟨fun i _ => ?_, ?_, ?_⟩
  · rw [helem]
    decide
  · simp only [helem]
    rw [forall_prefixed_iff]
    refine ⟨by decide, by decide, fun i c hc => ?_⟩
    obtain ⟨b, -, rfl⟩ := List.mem_map.mp (List.mem_of_getElem? hc)
    have := b.toNat_lt
    omega
  · exact Nat.le_trans hcount (Nat.le_of_eq (Nat.count_iff_forall.mpr fun _ _ => rfl).symm)

/-- A one-byte message under a prime and no noise comes back. -/
theorem roundTripsV7_one_byte :
    RoundTripsV7 zeroHmac (fun _ _ _ => false) [65] [1000003] [] (.ofList 16 []) :=
  (roundTripsV7_iff (by decide) (fun _ => ⟨0, rfl⟩) (by decide) (by decide) (by simp)).mpr
    invertibleV7_one_byte

/-- Under the key `{1}` the encryptor takes a remainder by zero. -/
theorem not_roundTripsV7_one :
    ¬ RoundTripsV7 zeroHmac (fun _ _ _ => false) [65] [1] [] (.ofList 16 []) := by
  intro h
  have hinv := invertibleV7_of_roundTrips (by decide) (fun _ => ⟨0, rfl⟩) (by decide) (by decide)
    (by simp) h
  exact absurd (hinv.usable 0 (Nat.succ_pos _)) (by decide)

end Napqes.C
