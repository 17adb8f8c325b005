import Napqes.Python.Proofs.BlockV7
import Napqes.Python.Proofs.StreamStrict

/-!
# Round trips of the v7 streams

Where every run of noise ends, the encryptors write a stream as long as its counters fit their
fields: the block number of the keystream, the number of chunks and the length of a chunk have four
bytes each. Every cut of what they write is decrypted to the plaintext.
-/

namespace Napqes.Python

variable {H : Hmac} {noise : Noise} {key : List Nat} {kb nonce aad : List UInt8}

/-! ## The bytes to mask -/

section
variable (hruns : ∀ pos, ∃ i, noise kb nonce (pos + i) = false)

section
variable (H key)

/-- The tokens of characters from number `idx` and position `pos` on, before they are masked. -/
def rawTokensFrom (idx pos : Nat) (plaintext : List Nat) : List UInt8 :=
  (Schedule.emitFree (realToken H key kb nonce) hruns (fillerToken H key kb nonce) idx pos
    plaintext).flatMap b128EncodeToken

/-- The tokens of a plaintext, before they are masked. -/
def rawTokens (plaintext : List Nat) : List UInt8 := rawTokensFrom H key hruns 0 0 plaintext

end

theorem length_le_flatMap_b128EncodeToken (slots : List Nat) :
    slots.length ≤ (slots.flatMap b128EncodeToken).length := by
  induction slots with
  | nil => exact Nat.zero_le _
  | cons n slots ih =>
      have hpos := length_b128EncodeToken_pos n
      rw [List.flatMap_cons, List.length_append, List.length_cons]
      omega

/-- The first character: its bytes, and the bytes of the others behind them. -/
theorem emitChar_rawTokensFrom (hkey : Rust.KeyUsable key) {idx pos c : Nat}
    {plaintext : List Nat} (hidx : idx ≤ pos)
    (hpos : pos + (rawTokensFrom H key hruns idx pos (c :: plaintext)).length ≤ 2 ^ 40) :
    ∃ raw pos', emitChar H noise key kb nonce c idx pos [] = .ok (raw, pos') ∧ idx < pos' ∧
      rawTokensFrom H key hruns idx pos (c :: plaintext) =
        raw ++ rawTokensFrom H key hruns (idx + 1) pos' plaintext ∧
      pos' + (rawTokensFrom H key hruns (idx + 1) pos' plaintext).length ≤ 2 ^ 40 := by
  have hslots : (List.range' pos (Schedule.gap hruns pos)).length + 1 ≤
      (((List.range' pos (Schedule.gap hruns pos)).map (fillerToken H key kb nonce idx) ++
        [realToken H key kb nonce idx c]).flatMap b128EncodeToken).length := by
    have hle := length_le_flatMap_b128EncodeToken
      ((List.range' pos (Schedule.gap hruns pos)).map (fillerToken H key kb nonce idx) ++
        [realToken H key kb nonce idx c])
    rwa [List.length_append, List.length_map, List.length_singleton] at hle
  rw [List.length_range'] at hslots
  have hsplit : rawTokensFrom H key hruns idx pos (c :: plaintext) =
      ((List.range' pos (Schedule.gap hruns pos)).map (fillerToken H key kb nonce idx) ++
        [realToken H key kb nonce idx c]).flatMap b128EncodeToken ++
      rawTokensFrom H key hruns (idx + 1) (pos + Schedule.gap hruns pos + 1) plaintext := by
    rw [rawTokensFrom, Schedule.emitFree, List.flatMap_append]
    rfl
  rw [hsplit, List.length_append] at hpos
  refine ⟨_, _, ?_, ?_, hsplit, ?_⟩
  · rw [emitChar_eq_ok hkey (fun i hi => Schedule.noise_of_lt_gap hruns hi)
      (Schedule.noise_add_gap hruns pos) (by omega) (by omega), List.nil_append]
  · omega
  · omega

/-! ## The encryptors return -/

theorem exists_flushFull {cs : Nat} (hcs : 1 ≤ cs) {pending more : List UInt8} {idx : Nat}
    (hcount : idx + (pieces cs (pending ++ more)).length < 2 ^ 32)
    (hlen : ∀ p ∈ pieces cs (pending ++ more), p.length < 2 ^ 32) :
    ∃ out, (flushFull H kb nonce (beBytes 4 aad.length) aad cs pending idx).outcome = .ok out := by
  induction hn : pending.length using Nat.strong_induction_on generalizing pending idx with
  | _ n ih =>
      by_cases hlong : cs ≤ pending.length
      · have hpiece : (pending.take cs).length = cs := by rw [List.length_take]; omega
        rw [← List.take_append_drop cs pending, List.append_assoc, pieces_append hcs hpiece]
          at hcount hlen
        rw [List.length_cons] at hcount
        rw [flushFull_long hlong,
          flushChunk_eq_ok (by omega) (hlen _ (List.mem_cons_self ..)), Gen.liftM_ok_bind,
          Gen.yield_bind]
        exact ih _ (by rw [List.length_drop]; omega) (by omega)
          (fun p hp => hlen p (List.mem_cons_of_mem _ hp)) rfl
      · rw [flushFull_short (Nat.lt_of_not_le hlong)]
        exact ⟨_, rfl⟩

theorem exists_encryptStreamAeChars (hkey : Rust.KeyUsable key) {cs : Nat} (hcs : 1 ≤ cs)
    {plaintext : List Nat} {idx pos offset : Nat} {ks : Keystream} {pending : List UInt8}
    {chunkIdx : Nat} (hidx : idx ≤ pos) (hks : ks.At H kb nonce offset)
    (hpos : pos + (rawTokensFrom H key hruns idx pos plaintext).length ≤ 2 ^ 40)
    (hover : offset + (rawTokensFrom H key hruns idx pos plaintext).length ≤ 32 * 2 ^ 32)
    (hpending : pending.length < cs)
    (hcount : chunkIdx + (pieces cs (pending ++ maskAt H kb nonce offset
      (rawTokensFrom H key hruns idx pos plaintext))).length < 2 ^ 32)
    (hlen : ∀ p ∈ pieces cs (pending ++ maskAt H kb nonce offset
      (rawTokensFrom H key hruns idx pos plaintext)), p.length < 2 ^ 32) :
    ∃ full rest,
      Cut cs (pending ++ maskAt H kb nonce offset
        (rawTokensFrom H key hruns idx pos plaintext)) full rest ∧
      (encryptStreamAeChars H noise key kb nonce (beBytes 4 aad.length) aad cs plaintext idx pos ks
        pending chunkIdx).outcome = .ok (rest, chunkIdx + full.length) := by
  induction plaintext generalizing idx pos offset ks pending chunkIdx with
  | nil =>
      refine ⟨[], pending, ?_, rfl⟩
      simpa [maskAt, xorBytes, rawTokensFrom, Schedule.emitFree] using Cut.refl hpending
  | cons c plaintext ih =>
      obtain ⟨raw, pos', hemit, hnext, hsplit, hpos'⟩ :=
        emitChar_rawTokensFrom hruns hkey hidx hpos
      rw [hsplit, maskAt_append, ← List.append_assoc] at hcount hlen
      rw [hsplit, List.length_append] at hover
      have hraw : offset + raw.length ≤ 32 * 2 ^ 32 := by omega
      obtain ⟨ks', hmask, hks'⟩ := hks.exists_mask hraw
      obtain ⟨⟨rest, mid⟩, hflush⟩ := exists_flushFull hcs hcount hlen
      obtain ⟨full, hcut, -, rfl, -⟩ := cut_of_flushFull hcs hflush
      rw [hcut.split] at hcount hlen
      rw [List.length_append, ← Nat.add_assoc] at hcount
      obtain ⟨full', last, hcut', hrun⟩ := ih (by omega) hks' hpos' (by omega) hcut.short
        hcount (fun p hp => hlen p (List.mem_append_right _ hp))
      refine ⟨full ++ full', last, ?_, ?_⟩
      · rw [hsplit, maskAt_append, ← List.append_assoc]
        exact hcut.trans hcut'
      · rw [encryptStreamAeChars, hemit, Gen.liftM_ok_bind]
        simp only
        rw [hmask, Gen.liftM_ok_bind]
        simp only
        rw [Gen.bind_of_ok hflush]
        simp only
        rw [hrun, List.length_append, Nat.add_assoc]

/-- `encrypt_stream_ae` returns when its counters fit. -/
theorem encryptStreamAe_outcome {mathSqrt : Nat → Nat} (hpy : validateKey mathSqrt key = .ok ⟨⟩)
    (hkb : keyBytes key = .ok kb) (haad : aad.length < 2 ^ 32) {cs : Nat} (hcs : 1 ≤ cs)
    {plaintext : List Nat} (hover : (rawTokens H key hruns plaintext).length ≤ 32 * 2 ^ 32)
    (hcount : (pieces cs (maskAt H kb nonce 0 (rawTokens H key hruns plaintext))).length < 2 ^ 32)
    (hlen : ∀ p ∈ pieces cs (maskAt H kb nonce 0 (rawTokens H key hruns plaintext)),
      p.length < 2 ^ 32) :
    (encryptStreamAe H noise mathSqrt plaintext key aad nonce cs).outcome = .ok ⟨⟩ := by
  have hkey := keyUsable_of_validateKey hpy
  obtain ⟨full, rest, hcut, hrun⟩ := @exists_encryptStreamAeChars H noise key kb nonce aad hruns
    hkey cs hcs plaintext 0 0 0 ⟨0, []⟩ [] 0 (Nat.le_refl 0) .init
    (by rw [Nat.zero_add]; exact Nat.le_trans hover (by decide))
    (by rw [Nat.zero_add]; exact hover) hcs (by rw [Nat.zero_add]; exact hcount) hlen
  rw [Nat.zero_add] at hrun
  have hpieces : pieces cs (maskAt H kb nonce 0 (rawTokens H key hruns plaintext)) = _ :=
    hcut.pieces_eq hcs
  rw [hpieces] at hcount hlen
  rw [encryptStreamAe_eq hpy hkb haad, Gen.yield_bind, Gen.bind_of_ok hrun]
  simp only
  by_cases hrest : rest.isEmpty = true
  · rw [if_pos hrest] at hcount
    rw [if_neg (by simp [hrest]), closeStream_eq hcount]
  · rw [if_neg hrest, List.length_append, List.length_singleton] at hcount
    rw [if_neg hrest] at hlen
    rw [if_pos hrest, flushChunk_eq_ok (by omega) (hlen rest (by simp)), Gen.liftM_ok_bind,
      Gen.yield_bind, closeStream_eq hcount]

theorem exists_encryptStreamChars (hkey : Rust.KeyUsable key) {plaintext : List Nat}
    {idx pos offset : Nat} {ks : Keystream} {h : List UInt8} (hidx : idx ≤ pos)
    (hks : ks.At H kb nonce offset)
    (hpos : pos + (rawTokensFrom H key hruns idx pos plaintext).length ≤ 2 ^ 40)
    (hover : offset + (rawTokensFrom H key hruns idx pos plaintext).length ≤ 32 * 2 ^ 32) :
    ∃ fed, (encryptStreamChars H noise key kb nonce plaintext idx pos ks h).outcome = .ok fed := by
  induction plaintext generalizing idx pos offset ks h with
  | nil => exact ⟨h, rfl⟩
  | cons c plaintext ih =>
      obtain ⟨raw, pos', hemit, hnext, hsplit, hpos'⟩ :=
        emitChar_rawTokensFrom hruns hkey hidx hpos
      rw [hsplit, List.length_append] at hover
      have hraw : offset + raw.length ≤ 32 * 2 ^ 32 := by omega
      obtain ⟨ks', hmask, hks'⟩ := hks.exists_mask hraw
      rw [encryptStreamChars, hemit, Gen.liftM_ok_bind]
      simp only
      rw [hmask, Gen.liftM_ok_bind]
      exact ih (by omega) hks' hpos' (by omega)

/-- `encrypt_stream` returns when the keystream is long enough. -/
theorem encryptStream_outcome {mathSqrt : Nat → Nat} (hpy : validateKey mathSqrt key = .ok ⟨⟩)
    (hkb : keyBytes key = .ok kb) (haad : aad.length < 2 ^ 32) {plaintext : List Nat}
    (hover : (rawTokens H key hruns plaintext).length ≤ 32 * 2 ^ 32) :
    (encryptStream H noise mathSqrt plaintext key aad nonce).outcome = .ok ⟨⟩ := by
  have hkey := keyUsable_of_validateKey hpy
  obtain ⟨fed, hrun⟩ := @exists_encryptStreamChars H noise key kb nonce hruns hkey plaintext 0 0 0
    ⟨0, []⟩ (strictTagInput aad nonce []) (Nat.le_refl 0) .init
    (by rw [Nat.zero_add]; exact Nat.le_trans hover (by decide))
    (by rw [Nat.zero_add]; exact hover)
  rw [encryptStream_eq hpy hkb haad, Gen.yield_bind, Gen.bind_of_ok hrun]
  rfl

end

/-! ## Chunks too long for their length field -/

theorem flushFull_yielded_of_le {cs : Nat} (hcs : 2 ^ 32 ≤ cs) (pending : List UInt8) (idx : Nat) :
    (flushFull H kb nonce (beBytes 4 aad.length) aad cs pending idx).yielded = [] := by
  by_cases hlong : cs ≤ pending.length
  · rw [flushFull_long hlong]
    cases hframe : flushChunk H kb nonce (beBytes 4 aad.length) aad idx (pending.take cs) with
    | error e => rfl
    | ok frame =>
        have hlen := (of_flushChunk hframe).2.1
        rw [List.length_take] at hlen
        omega
  · rw [flushFull_short (Nat.lt_of_not_le hlong)]

theorem encryptStreamAeChars_yielded_of_le {cs : Nat} (hcs : 2 ^ 32 ≤ cs) (plaintext : List Nat)
    (idx pos : Nat) (ks : Keystream) (pending : List UInt8) (chunkIdx : Nat) :
    (encryptStreamAeChars H noise key kb nonce (beBytes 4 aad.length) aad cs plaintext idx pos ks
      pending chunkIdx).yielded = [] := by
  induction plaintext generalizing idx pos ks pending chunkIdx with
  | nil => rfl
  | cons c plaintext ih =>
      rw [encryptStreamAeChars]
      apply Gen.bind_yielded_eq_nil rfl
      rintro ⟨raw, pos'⟩
      apply Gen.bind_yielded_eq_nil rfl
      rintro ⟨masked, ks'⟩
      apply Gen.bind_yielded_eq_nil (flushFull_yielded_of_le hcs _ _)
      rintro ⟨pending', chunkIdx'⟩
      exact ih _ _ _ _ _

/-- A chunk size whose first chunk does not fit its length field: only the nonce is written. -/
theorem encryptStreamAe_yielded_of_le {mathSqrt : Nat → Nat}
    (hpy : validateKey mathSqrt key = .ok ⟨⟩) (hkb : keyBytes key = .ok kb)
    (haad : aad.length < 2 ^ 32) {cs : Nat} (hcs : 2 ^ 32 ≤ cs) {plaintext : List Nat}
    (hplain : cs ≤ plaintext.length) :
    (encryptStreamAe H noise mathSqrt plaintext key aad nonce cs).yielded = [nonce] := by
  have hkey := keyUsable_of_validateKey hpy
  have hnone := @encryptStreamAeChars_yielded_of_le H noise key kb nonce aad cs hcs plaintext 0 0
    ⟨0, []⟩ [] 0
  rw [encryptStreamAe_eq hpy hkb haad, Gen.yield_bind]
  cases hout : (encryptStreamAeChars H noise key kb nonce (beBytes 4 aad.length) aad cs plaintext 0
      0 ⟨0, []⟩ [] 0).outcome with
  | error e => rw [Gen.bind_of_error hout, hnone]
  | ok out =>
      obtain ⟨rest, chunkIdx⟩ := out
      obtain ⟨slots, full, hplaced, -, -, hcut, hlen, -, -⟩ :=
        cut_of_encryptStreamAeChars hkey (by omega) (Nat.le_refl 0) Keystream.At.init
          (Nat.zero_le _) (Nat.zero_le _) (by rw [List.length_nil]; omega) hout
      have hslots := hplaced.length_le
      have hraw := length_le_flatMap_b128EncodeToken slots
      have hne := hcut.full_ne_nil (by omega) (by
        rw [List.nil_append, length_maskAt]
        omega)
      obtain ⟨p, hp⟩ := List.exists_mem_of_ne_nil full hne
      have hsize := hcut.length_eq p hp
      have hfits := hlen p hp
      omega

/-- A nonce alone is no stream. -/
theorem decryptStreamAe_nonce {verify : Rust.TagCheck} {mathSqrt : Nat → Nat}
    (hpy : validateKey mathSqrt key = .ok ⟨⟩) (hkb : keyBytes key = .ok kb)
    (haad : aad.length < 2 ^ 32) (hnonce : nonce.length = 16) :
    (decryptStreamAe H noise verify mathSqrt [nonce] key aad).yielded = [] := by
  rcases @decryptStreamAe_header H noise verify key kb aad mathSqrt hpy hkb haad [nonce] with
    ⟨nonce', r, hnonce', hsplit, hrun⟩ | ⟨-, e, hrun, -⟩
  · have hr : r.bytes.length = 0 := by
      have hlen := congrArg List.length hsplit
      rw [List.flatten_singleton, List.length_append] at hlen
      omega
    rw [hrun]
    rcases @decryptStreamAeLoop_round H noise verify key kb nonce' aad r 0 ⟨0, []⟩ ⟨[], 0, 0⟩ with
      ⟨data, r', hread, -⟩ | ⟨-, hrun⟩ | ⟨-, -, e, hrun, -⟩
    · have := (chunkReads_iff.mp hread).2.2.1
      omega
    · rw [hrun]
    · rw [hrun]
  · rw [hrun]

/-! ## Main result -/

/-- Without noise a plaintext of small tokens stays short. -/
theorem length_rawTokens_le (hruns : ∀ pos, ∃ i, noise kb nonce (pos + i) = false)
    (hfree : ∀ pos, noise kb nonce pos = false) {w : Nat} {plaintext : List Nat}
    (h : ∀ idx, ∀ c ∈ plaintext, realToken H key kb nonce idx c < 128 ^ (w + 1)) :
    (rawTokens H key hruns plaintext).length ≤ plaintext.length * (w + 1) := by
  rw [rawTokens, rawTokensFrom, Schedule.emitFree_of_free _ hruns hfree, List.length_flatMap]
  apply Nat.le_trans (List.sum_le_card_nsmul _ (w + 1) ?_)
  · rw [List.length_map, List.length_mapIdx, smul_eq_mul]
  · intro n hn
    obtain ⟨token, htoken, rfl⟩ := List.mem_map.mp hn
    obtain ⟨i, hi, rfl⟩ := List.mem_mapIdx.mp htoken
    exact length_b128EncodeToken_le (h _ _ (List.getElem_mem hi))

/-- No noise at all, for concrete instances. -/
def noNoise : Noise := fun _ _ _ => false

/-- The tokens of small characters under a small key. -/
theorem realToken_1000003_lt {c : Nat} (hc : c ≤ 127) (idx : Nat) :
    realToken zeroHmac [1000003] kb nonce idx c < 128 ^ (3 + 1) := by
  have helem : keyElem [1000003] idx = 1000003 := by
    rw [keyElem, List.length_singleton, Nat.mod_one]
    rfl
  have haddend := Rust.addendVal_lt (zeroHmac kb (Rust.addendInput nonce idx)).toList
    (show 2 ≤ 1000003 by decide)
  rw [realToken, realAddend, helem]
  omega

section
variable (H : Hmac) (noise : Noise) (mathSqrt : Nat → Nat) (key : List Nat)
  (nonce : FixedBytes 16)

/-- The streams round-trip in any cut: for plaintexts of at most `2 ^ 32` keystream blocks, with
fewer than `2 ^ 32` chunks of fewer than `2 ^ 32` bytes each, both encryptors return, and every cut
of what they write is decrypted to the plaintext. -/
theorem v7_streams_roundtrip (hkey : validateKey mathSqrt key = .ok ⟨⟩)
    (hruns : ∀ pos, ∃ i, noise (Rust.keyBytes key) nonce.toList (pos + i) = false)
    (aad : List UInt8) (haad : aad.length < 2 ^ 32) (plaintext : List Nat)
    (hplain : ∀ c ∈ plaintext, c ≤ 0x10FFFF)
    (hblocks : (rawTokens H key hruns plaintext).length ≤ 32 * 2 ^ 32) :
    (∀ chunkSize : Nat, 1 ≤ chunkSize →
      ((rawTokens H key hruns plaintext).length + chunkSize - 1) / chunkSize < 2 ^ 32 →
      min chunkSize (rawTokens H key hruns plaintext).length < 2 ^ 32 →
      (encryptStreamAe H noise mathSqrt plaintext key aad nonce.toList chunkSize).outcome =
        .ok ⟨⟩ ∧
      ∀ byteChunks : List (List UInt8), byteChunks.flatten =
          (encryptStreamAe H noise mathSqrt plaintext key aad nonce.toList
            chunkSize).yielded.flatten →
        decryptStreamAe H noise (Rust.hmacVerify H) mathSqrt byteChunks key aad =
          ⟨plaintext, .ok ⟨⟩⟩) ∧
    (encryptStream H noise mathSqrt plaintext key aad nonce.toList).outcome = .ok ⟨⟩ ∧
    ∀ byteChunks : List (List UInt8), byteChunks.flatten =
        (encryptStream H noise mathSqrt plaintext key aad nonce.toList).yielded.flatten →
      decryptStreamStrict H noise (Rust.hmacVerify H) mathSqrt byteChunks key aad =
        .ok plaintext := by
  have hkb := keyBytes_of_validateKey hkey
  refine ⟨?_, ?_⟩
  · intro chunkSize hsize hcount hchunk
    have hok : (encryptStreamAe H noise mathSqrt plaintext key aad nonce.toList
        chunkSize).outcome = .ok ⟨⟩ := by
      apply encryptStreamAe_outcome hruns hkey hkb haad hsize hblocks
      · rw [length_pieces hsize, length_maskAt]
        exact hcount
      · intro p hp
        have hle := (mem_pieces hsize hp).1
        have htotal := length_le_of_mem_pieces hsize hp
        rw [length_maskAt] at htotal
        omega
    refine ⟨hok, ?_⟩
    intro byteChunks hflat
    obtain ⟨raw, hsealed, hyielded⟩ := sealed_of_encryptStreamAe hkey hkb hsize hok
    rw [hyielded] at hflat
    exact decryptStreamAe_aeStream hkey hkb nonce.length_toList hsize hplain hsealed hflat
  · have hok := @encryptStream_outcome H noise key _ nonce.toList aad hruns mathSqrt hkey hkb haad
      plaintext hblocks
    refine ⟨hok, ?_⟩
    intro byteChunks hflat
    obtain ⟨raw, hemitted, -, hyielded⟩ := sealed_of_encryptStream hkey hkb hok
    rw [hyielded] at hflat
    rw [decryptStreamStrict, decryptStream_strictStream hkey hkb nonce.length_toList haad hplain
      hemitted hflat]
    rfl

end

/-- Three characters without noise, in chunks of four bytes, however the streams are cut. -/
theorem v7_streams_roundtrip_without_noise :
    (encryptStreamAe zeroHmac noNoise Nat.sqrt [97, 98, 99] [1000003] [7]
        (FixedBytes.ofList 16 [1]).toList (4 : Nat)).outcome = .ok ⟨⟩ ∧
    ∀ byteChunks : List (List UInt8), byteChunks.flatten =
        (encryptStreamAe zeroHmac noNoise Nat.sqrt [97, 98, 99] [1000003] [7]
          (FixedBytes.ofList 16 [1]).toList (4 : Nat)).yielded.flatten →
      decryptStreamAe zeroHmac noNoise (Rust.hmacVerify zeroHmac) Nat.sqrt byteChunks
        [1000003] [7] = ⟨[97, 98, 99], .ok ⟨⟩⟩ := by
  have hruns : ∀ pos, ∃ i, noNoise (Rust.keyBytes [1000003])
      (FixedBytes.ofList 16 [1]).toList (pos + i) = false := fun pos => ⟨0, rfl⟩
  have hlen : (rawTokens zeroHmac [1000003] hruns [97, 98, 99]).length ≤ 3 * (3 + 1) := by
    apply length_rawTokens_le hruns (fun pos => rfl)
    intro idx c hc
    apply realToken_1000003_lt
    simp only [List.mem_cons, List.not_mem_nil, or_false] at hc
    omega
  have hmain := (v7_streams_roundtrip zeroHmac noNoise Nat.sqrt [1000003]
    (.ofList 16 [1]) validateKey_1000003 hruns [7] (by decide) [97, 98, 99] (by decide)
    (by omega)).1 4 (by decide) (by omega) (by omega)
  exact hmain

/-- A chunk of `2 ^ 32` bytes has no length field: the encryptor raises behind the nonce, and what
it wrote is not decrypted to the plaintext. -/
theorem v7_streams_roundtrip_fails_for_long_chunks :
    ¬ ∀ (H : Hmac) (noise : Noise) (mathSqrt : Nat → Nat) (key : List Nat) (nonce : FixedBytes 16),
      validateKey mathSqrt key = .ok ⟨⟩ →
      ∀ (hruns : ∀ pos, ∃ i, noise (Rust.keyBytes key) nonce.toList (pos + i) = false)
        (aad : List UInt8), aad.length < 2 ^ 32 →
      ∀ plaintext : List Nat, (∀ c ∈ plaintext, c ≤ 0x10FFFF) →
      (rawTokens H key hruns plaintext).length ≤ 32 * (2 ^ 32 - 1) →
      ∀ chunkSize : Nat, 1 ≤ chunkSize →
      ((rawTokens H key hruns plaintext).length + chunkSize - 1) / chunkSize < 2 ^ 32 →
      ∀ byteChunks : List (List UInt8), byteChunks.flatten =
          (encryptStreamAe H noise mathSqrt plaintext key aad nonce.toList
            chunkSize).yielded.flatten →
        (decryptStreamAe H noise (Rust.hmacVerify H) mathSqrt byteChunks key aad).yielded =
          plaintext := by
  intro hclaim
  have hruns : ∀ pos, ∃ i, noNoise (Rust.keyBytes [1000003])
      (FixedBytes.ofList 16 [1]).toList (pos + i) = false := fun pos => ⟨0, rfl⟩
  obtain ⟨plaintext, hsize, hchars⟩ : ∃ plaintext : List Nat, plaintext.length = 2 ^ 32 ∧
      ∀ c ∈ plaintext, c = 97 :=
    ⟨List.replicate (2 ^ 32) 97, List.length_replicate, fun c hc => List.eq_of_mem_replicate hc⟩
  have hlen : (rawTokens zeroHmac [1000003] hruns plaintext).length ≤ 2 ^ 32 * (3 + 1) := by
    rw [← hsize]
    apply length_rawTokens_le hruns (fun pos => rfl)
    intro idx c hc
    rw [hchars c hc]
    exact realToken_1000003_lt (by decide) idx
  have hkb := keyBytes_of_keyValid keyValid_1000003
  have hyielded := @encryptStreamAe_yielded_of_le zeroHmac noNoise [1000003] _
    (FixedBytes.ofList 16 [1]).toList [] Nat.sqrt validateKey_1000003 hkb (by decide) (2 ^ 32)
    (Nat.le_refl _) plaintext (Nat.le_of_eq hsize.symm)
  have hdecrypted := hclaim zeroHmac noNoise Nat.sqrt [1000003] (.ofList 16 [1])
    validateKey_1000003 hruns [] (by decide) plaintext
    (fun c hc => by rw [hchars c hc]; decide) (by omega) (2 ^ 32) (by decide) (by omega)
    [(FixedBytes.ofList 16 [1]).toList] (by rw [hyielded])
  rw [decryptStreamAe_nonce validateKey_1000003 hkb (by decide)
    (FixedBytes.length_toList _)] at hdecrypted
  rw [← hdecrypted] at hsize
  cases hsize

end Napqes.Python
