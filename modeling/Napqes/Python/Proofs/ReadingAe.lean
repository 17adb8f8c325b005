import Napqes.Python.Proofs.StreamAe

/-!
# Reading streams with a tag on every chunk

One round of the loop of `decrypt_stream_ae` finds a tagged chunk, finds the final tag, or raises.
What it finds depends on the bytes in front of it and not on how they were delivered.
-/

namespace Napqes.Python

open Rust (TagCheck)

variable {H : Hmac} {noise : Noise} {verify : TagCheck} {key : List Nat}
  {kb nonce aad : List UInt8}

section
variable (verify kb nonce aad)

/-- `bs` starts with a chunk of number `idx` whose tag verifies; `rest` stands behind it. -/
structure ChunkReads (idx : Nat) (bs data rest : List UInt8) : Prop where
  ne_nil : data ≠ []
  idx_lt : idx < 2 ^ 32
  length_lt : data.length < 2 ^ 32
  split : ∃ tag, tag.length = 32 ∧ bs = beBytes 4 data.length ++ (data ++ (tag ++ rest)) ∧
    verify kb (aeChunkInput nonce aad idx data) tag = true

/-- `bs` starts with a final tag over `idx` chunks that verifies. -/
structure FinalReads (idx : Nat) (bs : List UInt8) : Prop where
  idx_lt : idx < 2 ^ 32
  split : ∃ tag rest, tag.length = 32 ∧ bs = beBytes 4 0 ++ (tag ++ rest) ∧
    verify kb (aeFinalInput nonce aad idx) tag = true

end

/-- What the loop does with the bytes of a chunk. -/
def openChunk (H : Hmac) (noise : Noise) (key : List Nat) (kb nonce data : List UInt8)
    (ks : Keystream) (st : Decoder) : Gen PyErr Nat (Keystream × Decoder) := do
  let (unmasked, ks) ← ks.mask H kb nonce data
  let st ← decodeBytes H noise key kb nonce unmasked st
  return (ks, st)

/-- Where the keystream reaches, a chunk is unmasked and decoded. -/
theorem openChunk_eq {offset : Nat} {ks : Keystream} (hks : ks.At H kb nonce offset)
    {data : List UInt8} (hlen : offset + data.length ≤ 32 * 2 ^ 32) (st : Decoder) :
    ∃ ks', ks'.At H kb nonce (offset + data.length) ∧
      openChunk H noise key kb nonce data ks st =
        decodeBytes H noise key kb nonce (maskAt H kb nonce offset data) st >>= fun st =>
          ⟨[], .ok (ks', st)⟩ := by
  obtain ⟨ks', hmask, hks'⟩ := hks.exists_mask hlen
  refine ⟨ks', hks', ?_⟩
  rw [openChunk, hmask]
  rfl

/-- A chunk by its places in the bytes. -/
theorem chunkReads_iff {idx : Nat} {bs data rest : List UInt8} :
    ChunkReads verify kb nonce aad idx bs data rest ↔
      beNat (bs.take 4) ≠ 0 ∧ idx < 2 ^ 32 ∧ 36 + beNat (bs.take 4) ≤ bs.length ∧
      data = (bs.drop 4).take (beNat (bs.take 4)) ∧ rest = bs.drop (36 + beNat (bs.take 4)) ∧
      verify kb (aeChunkInput nonce aad idx data)
        ((bs.drop (4 + beNat (bs.take 4))).take 32) = true := by
  constructor
  · intro h
    obtain ⟨tag, htag, rfl, hverify⟩ := h.split
    have hpos := List.length_pos_iff.mpr h.ne_nil
    have hfield : beNat ((beBytes 4 data.length ++ (data ++ (tag ++ rest))).take 4) =
        data.length := by
      rw [List.take_left' (length_beBytes 4 _), beNat_beBytes_of_lt h.length_lt]
    have hbody : (beBytes 4 data.length ++ (data ++ (tag ++ rest))).drop 4 =
        data ++ (tag ++ rest) := List.drop_left' (length_beBytes 4 _)
    have hafter : (beBytes 4 data.length ++ (data ++ (tag ++ rest))).drop (4 + data.length) =
        tag ++ rest := by
      rw [← List.drop_drop, hbody, List.drop_left]
    rw [hfield, hbody, hafter, List.take_left, List.take_left' htag]
    refine ⟨by omega, h.idx_lt, ?_, rfl, ?_, hverify⟩
    · simp only [List.length_append, length_beBytes, htag]
      omega
    · rw [show 36 + data.length = 4 + data.length + 32 by omega, ← List.drop_drop, hafter,
        List.drop_left' htag]
  · rintro ⟨hzero, hidx, hlen, rfl, rfl, hverify⟩
    have hfour : (bs.take 4).length = 4 := by rw [List.length_take]; omega
    have hlt : beNat (bs.take 4) < 2 ^ 32 := by simpa [hfour] using beNat_lt (bs.take 4)
    have hdata : ((bs.drop 4).take (beNat (bs.take 4))).length = beNat (bs.take 4) := by
      rw [List.length_take, List.length_drop]
      omega
    refine ⟨?_, hidx, by rw [hdata]; exact hlt, _, ?_, ?_, hverify⟩
    · apply List.ne_nil_of_length_pos
      omega
    · rw [List.length_take, List.length_drop]
      omega
    · rw [hdata, beBytes_beNat_of_length hfour,
        show 36 + beNat (bs.take 4) = 4 + beNat (bs.take 4) + 32 by omega,
        ← List.drop_drop (i := 32), List.take_append_drop, ← List.drop_drop, List.take_append_drop,
        List.take_append_drop]

/-- The end by its places in the bytes. -/
theorem finalReads_iff {idx : Nat} {bs : List UInt8} :
    FinalReads verify kb nonce aad idx bs ↔
      beNat (bs.take 4) = 0 ∧ idx < 2 ^ 32 ∧ 36 ≤ bs.length ∧
      verify kb (aeFinalInput nonce aad idx) ((bs.drop 4).take 32) = true := by
  constructor
  · intro h
    obtain ⟨tag, rest, htag, rfl, hverify⟩ := h.split
    rw [List.take_left' (length_beBytes 4 _), List.drop_left' (length_beBytes 4 _),
      List.take_left' htag]
    refine ⟨rfl, h.idx_lt, ?_, hverify⟩
    simp only [List.length_append, length_beBytes, htag]
    omega
  · rintro ⟨hzero, hidx, hlen, hverify⟩
    have hfour : (bs.take 4).length = 4 := by rw [List.length_take]; omega
    refine ⟨hidx, _, (bs.drop 4).drop 32, ?_, ?_, hverify⟩
    · rw [List.length_take, List.length_drop]
      omega
    · rw [← hzero, beBytes_beNat_of_length hfour, List.take_append_drop, List.take_append_drop]

/-- A chunk is read off its bytes in one way only. -/
theorem ChunkReads.unique {idx : Nat} {bs data data' rest rest' : List UInt8}
    (h : ChunkReads verify kb nonce aad idx bs data rest)
    (h' : ChunkReads verify kb nonce aad idx bs data' rest') : data = data' ∧ rest = rest' := by
  obtain ⟨-, -, -, rfl, rfl, -⟩ := chunkReads_iff.mp h
  obtain ⟨-, -, -, rfl, rfl, -⟩ := chunkReads_iff.mp h'
  exact ⟨rfl, rfl⟩

theorem chunkTagInput_eq_error {idx : Nat} (hidx : ¬ idx < 2 ^ 32) (data : List UInt8) :
    ∃ e, chunkTagInput nonce (beBytes 4 aad.length) aad idx data = .error e ∧
      ¬ e.IsValueError := by
  rw [chunkTagInput, toBytes, if_neg (show ¬ idx < 256 ^ 4 from hidx)]
  exact ⟨_, rfl, id⟩

theorem finalTagInput_eq_error {idx : Nat} (hidx : ¬ idx < 2 ^ 32) :
    ∃ e, finalTagInput nonce (beBytes 4 aad.length) aad idx = .error e ∧ ¬ e.IsValueError := by
  rw [finalTagInput, toBytes, if_neg (show ¬ idx < 256 ^ 4 from hidx)]
  exact ⟨_, rfl, id⟩

/-- A whole chunk or final frame whose number does not fit four bytes. -/
def NumberFails (idx : Nat) (bs : List UInt8) : Prop :=
  2 ^ 32 ≤ idx ∧ 36 + beNat (bs.take 4) ≤ bs.length

/-- A round that finds neither a chunk nor the end raises: a `ValueError`, unless the number of a
whole frame does not fit. -/
def RoundRaises (verify : TagCheck) (kb nonce aad : List UInt8) (idx : Nat) (bs : List UInt8)
    (run : Gen PyErr Nat PUnit) : Prop :=
  (∀ data rest, ¬ ChunkReads verify kb nonce aad idx bs data rest) ∧
    ¬ FinalReads verify kb nonce aad idx bs ∧
    ∃ e, run = ⟨[], .error e⟩ ∧ (e.IsValueError ↔ ¬ NumberFails idx bs)

/-- A read fails on bytes that hold no whole frame. -/
theorem roundRaises_of_short {idx : Nat} {bs : List UInt8}
    (hshort : bs.length < 36 + beNat (bs.take 4)) {r : Reader} {n : Nat} {e : PyErr}
    (he : r.read n = .error e) : RoundRaises verify kb nonce aad idx bs ⟨[], .error e⟩ := by
  refine ⟨?_, ?_, e, rfl, iff_of_true (r.raisesValueError_read n e he) ?_⟩
  · intro data rest h
    have hle := (chunkReads_iff.mp h).2.2.1
    omega
  · intro h
    obtain ⟨hzero, -, hle, -⟩ := finalReads_iff.mp h
    omega
  · exact fun h => Nat.not_le_of_lt hshort h.2

/-- The tag input of a whole frame fails on a number that does not fit. -/
theorem roundRaises_of_number {idx : Nat} {bs : List UInt8} (hidx : ¬ idx < 2 ^ 32)
    (hle : 36 + beNat (bs.take 4) ≤ bs.length) {e : PyErr} (he : ¬ e.IsValueError) :
    RoundRaises verify kb nonce aad idx bs ⟨[], .error e⟩ :=
  ⟨fun _ _ h => hidx h.idx_lt, fun h => hidx h.idx_lt, e, rfl,
    iff_of_false he (not_not_intro ⟨Nat.le_of_not_lt hidx, hle⟩)⟩

/-- A round behind a zero length field. -/
theorem decryptStreamAeLoop_end {r : Reader} (hfour : 4 ≤ r.bytes.length)
    (hzero : beNat (r.bytes.take 4) = 0) (idx : Nat) (ks : Keystream) (st : Decoder) :
    (FinalReads verify kb nonce aad idx r.bytes ∧
      decryptStreamAeLoop H noise verify key kb nonce (beBytes 4 aad.length) aad r idx ks st =
        ⟨[], .ok ⟨⟩⟩) ∨
    RoundRaises verify kb nonce aad idx r.bytes
      (decryptStreamAeLoop H noise verify key kb nonce (beBytes 4 aad.length) aad r idx ks st) := by
  rw [decryptStreamAeLoop]
  obtain ⟨r₁, hlen₁, hread₁, hr₁⟩ := Reader.read_of_le hfour
  simp only [hread₁, Gen.liftM_ok_bind]
  rw [if_pos hzero]
  by_cases htag : r₁.bytes.length < tagSize
  · obtain ⟨e, he⟩ := Reader.read_of_lt htag
    simp only [he, Gen.liftM_error_bind]
    rw [tagSize] at htag
    exact Or.inr (roundRaises_of_short (by omega) he)
  obtain ⟨r₂, hlen₂, hread₂, -⟩ := Reader.read_of_le (Nat.not_lt.mp htag)
  have hfinal : r₁.bytes.take tagSize = (r.bytes.drop 4).take 32 := by rw [hr₁, tagSize]
  rw [tagSize] at htag
  simp only [hread₂, Gen.liftM_ok_bind, hfinal]
  by_cases hidx : idx < 2 ^ 32
  · simp only [finalTagInput_eq_ok hidx, Gen.liftM_ok_bind]
    by_cases hverify : verify kb (aeFinalInput nonce aad idx) ((r.bytes.drop 4).take 32) = true
    · rw [if_neg (not_not.mpr hverify)]
      exact Or.inl ⟨finalReads_iff.mpr ⟨hzero, hidx, by omega, hverify⟩, rfl⟩
    · rw [if_pos hverify]
      exact Or.inr ⟨fun data rest h => (chunkReads_iff.mp h).1 hzero,
        fun h => hverify (finalReads_iff.mp h).2.2.2, _, rfl,
        iff_of_true trivial fun h => Nat.not_le_of_lt hidx h.1⟩
  · obtain ⟨e, he, hkind⟩ := @finalTagInput_eq_error nonce aad idx hidx
    simp only [he, Gen.liftM_error_bind]
    exact Or.inr (roundRaises_of_number hidx (by omega) hkind)

/-- A round behind the length field of a chunk. -/
theorem decryptStreamAeLoop_chunk {r : Reader} (hfour : 4 ≤ r.bytes.length)
    (hne : beNat (r.bytes.take 4) ≠ 0) (idx : Nat) (ks : Keystream) (st : Decoder) :
    (∃ data r', ChunkReads verify kb nonce aad idx r.bytes data r'.bytes ∧
      decryptStreamAeLoop H noise verify key kb nonce (beBytes 4 aad.length) aad r idx ks st =
        openChunk H noise key kb nonce data ks st >>= fun next =>
          decryptStreamAeLoop H noise verify key kb nonce (beBytes 4 aad.length) aad r' (idx + 1)
            next.1 next.2) ∨
    RoundRaises verify kb nonce aad idx r.bytes
      (decryptStreamAeLoop H noise verify key kb nonce (beBytes 4 aad.length) aad r idx ks st) := by
  rw [decryptStreamAeLoop]
  obtain ⟨r₁, hlen₁, hread₁, hr₁⟩ := Reader.read_of_le hfour
  simp only [hread₁, Gen.liftM_ok_bind]
  rw [if_neg hne]
  by_cases hshort : r.bytes.length < 36 + beNat (r.bytes.take 4)
  · rcases @Reader.read_read_of_lt r₁ (beNat (r.bytes.take 4)) tagSize
      (by rw [tagSize]; omega) with ⟨e, he⟩ | ⟨r₂, hlen₂, hread₂, e, he⟩
    · simp only [he, Gen.liftM_error_bind]
      exact Or.inr (roundRaises_of_short hshort he)
    · simp only [hread₂, Gen.liftM_ok_bind, he, Gen.liftM_error_bind]
      exact Or.inr (roundRaises_of_short hshort he)
  obtain ⟨r₂, r₃, hlen₂, hlen₃, hread₂, hread₃, hr₃⟩ :=
    @Reader.read_read r₁ (beNat (r.bytes.take 4)) tagSize (by rw [tagSize]; omega)
  have hdata : r₁.bytes.take (beNat (r.bytes.take 4)) =
      (r.bytes.drop 4).take (beNat (r.bytes.take 4)) := by rw [hr₁]
  have hchunkTag : (r₁.bytes.drop (beNat (r.bytes.take 4))).take tagSize =
      (r.bytes.drop (4 + beNat (r.bytes.take 4))).take 32 := by
    rw [hr₁, List.drop_drop, tagSize]
  have hrest : r₃.bytes = r.bytes.drop (36 + beNat (r.bytes.take 4)) := by
    rw [hr₃, hr₁, List.drop_drop, tagSize]
    congr 1
    omega
  simp only [hread₂, hread₃, Gen.liftM_ok_bind, hdata, hchunkTag]
  by_cases hidx : idx < 2 ^ 32
  · simp only [chunkTagInput_eq_ok hidx, Gen.liftM_ok_bind]
    by_cases hverify : verify kb
        (aeChunkInput nonce aad idx ((r.bytes.drop 4).take (beNat (r.bytes.take 4))))
        ((r.bytes.drop (4 + beNat (r.bytes.take 4))).take 32) = true
    · rw [if_neg (not_not.mpr hverify)]
      refine Or.inl ⟨_, r₃, chunkReads_iff.mpr ⟨hne, hidx, by omega, rfl, hrest, hverify⟩, ?_⟩
      simp only [openChunk, Gen.bind_assoc, Gen.pure_eq, Gen.ok_bind, List.nil_append]
    · rw [if_pos hverify]
      refine Or.inr ⟨?_, fun h => hne (finalReads_iff.mp h).1, _, rfl,
        iff_of_true trivial fun h => Nat.not_le_of_lt hidx h.1⟩
      intro data rest h
      obtain ⟨-, -, -, rfl, -, hverify'⟩ := chunkReads_iff.mp h
      exact hverify hverify'
  · obtain ⟨e, he, hkind⟩ := @chunkTagInput_eq_error nonce aad idx hidx
      ((r.bytes.drop 4).take (beNat (r.bytes.take 4)))
    simp only [he, Gen.liftM_error_bind]
    exact Or.inr (roundRaises_of_number hidx (by omega) hkind)

/-- One round of the loop: everything it can do. -/
theorem decryptStreamAeLoop_round (r : Reader) (idx : Nat) (ks : Keystream) (st : Decoder) :
    (∃ data r', ChunkReads verify kb nonce aad idx r.bytes data r'.bytes ∧
      decryptStreamAeLoop H noise verify key kb nonce (beBytes 4 aad.length) aad r idx ks st =
        openChunk H noise key kb nonce data ks st >>= fun next =>
          decryptStreamAeLoop H noise verify key kb nonce (beBytes 4 aad.length) aad r' (idx + 1)
            next.1 next.2) ∨
    (FinalReads verify kb nonce aad idx r.bytes ∧
      decryptStreamAeLoop H noise verify key kb nonce (beBytes 4 aad.length) aad r idx ks st =
        ⟨[], .ok ⟨⟩⟩) ∨
    RoundRaises verify kb nonce aad idx r.bytes
      (decryptStreamAeLoop H noise verify key kb nonce (beBytes 4 aad.length) aad r idx ks st) := by
  by_cases hfour : 4 ≤ r.bytes.length
  · by_cases hzero : beNat (r.bytes.take 4) = 0
    · exact Or.inr (decryptStreamAeLoop_end hfour hzero idx ks st)
    · exact (decryptStreamAeLoop_chunk hfour hzero idx ks st).imp_right Or.inr
  · obtain ⟨e, he⟩ := Reader.read_of_lt (Nat.not_le.mp hfour)
    rw [decryptStreamAeLoop]
    simp only [he, Gen.liftM_error_bind]
    exact Or.inr (Or.inr (roundRaises_of_short (by omega) he))

/-! ## Runs of the loop -/

/-- The loop on the frames of some pieces and a final tag decodes the pieces. -/
theorem decryptStreamAeLoop_aeFrames {qs : List (List UInt8)} {r : Reader} {idx offset : Nat}
    {ks : Keystream} {st : Decoder} {rest : List UInt8} (hks : ks.At H kb nonce offset)
    (hover : offset + qs.flatten.length ≤ 32 * 2 ^ 32) (hne : ∀ p ∈ qs, p ≠ [])
    (hlen : ∀ p ∈ qs, p.length < 2 ^ 32) (hcount : idx + qs.length < 2 ^ 32)
    (hbytes : r.bytes = (aeFrames H kb nonce aad idx qs).flatten ++
      (aeFinal H kb nonce aad (idx + qs.length) ++ rest))
    {out : List Nat} {st' : Decoder}
    (hdecode : decodeBytes H noise key kb nonce (maskAt H kb nonce offset qs.flatten) st =
      ⟨out, .ok st'⟩) :
    decryptStreamAeLoop H noise (Rust.hmacVerify H) key kb nonce (beBytes 4 aad.length) aad r idx
      ks st = ⟨out, .ok ⟨⟩⟩ := by
  induction qs generalizing r idx offset ks st out with
  | nil =>
      have hfinal : FinalReads (Rust.hmacVerify H) kb nonce aad idx r.bytes := by
        refine ⟨hcount, (H kb (aeFinalInput nonce aad idx)).toList, rest, by simp, ?_, ?_⟩
        · rw [hbytes, aeFinal, List.append_assoc]
          rfl
        · simp [Rust.hmacVerify, Rust.ctEqBytes]
      obtain ⟨rfl, -⟩ := Gen.mk.inj hdecode
      rcases decryptStreamAeLoop_round r idx ks st with
        ⟨data, r', hchunk, -⟩ | ⟨-, hrun⟩ | ⟨-, hno, -⟩
      · exact absurd (finalReads_iff.mp hfinal).1 (chunkReads_iff.mp hchunk).1
      · exact hrun
      · exact absurd hfinal hno
  | cons p qs ih =>
      have hchunk : ChunkReads (Rust.hmacVerify H) kb nonce aad idx r.bytes p
          ((aeFrames H kb nonce aad (idx + 1) qs).flatten ++
            (aeFinal H kb nonce aad (idx + 1 + qs.length) ++ rest)) := by
        refine ⟨hne p (List.mem_cons_self ..), ?_, hlen p (List.mem_cons_self ..),
          (H kb (aeChunkInput nonce aad idx p)).toList, by simp, ?_, ?_⟩
        · rw [List.length_cons] at hcount
          omega
        · rw [hbytes, aeFrames, List.flatten_cons, aeFrame, List.length_cons]
          simp only [List.append_assoc, Nat.add_comm 1, Nat.add_assoc]
        · simp [Rust.hmacVerify, Rust.ctEqBytes]
      rw [List.flatten_cons, maskAt_append, decodeBytes_append] at hdecode
      rw [List.flatten_cons, List.length_append] at hover
      obtain ⟨ks', hks', hopen⟩ := @openChunk_eq H noise key kb nonce offset ks hks p (by omega) st
      rcases decryptStreamAeLoop_round r idx ks st with
        ⟨data, r', hread, hrun⟩ | ⟨hfinal, -⟩ | ⟨hno, -, -⟩
      · obtain ⟨rfl, hr'⟩ := hread.unique hchunk
        rw [hrun, hopen, Gen.bind_assoc]
        cases hout : (decodeBytes H noise key kb nonce (maskAt H kb nonce offset data) st).outcome
          with
        | error e =>
            rw [Gen.bind_of_error hout] at hdecode
            cases (Gen.mk.inj hdecode).2
        | ok mid =>
            rw [Gen.bind_of_ok hout] at hdecode ⊢
            obtain ⟨hyielded, houtcome⟩ := Gen.mk.inj hdecode
            have hrest := ih hks' (by omega) (fun q hq => hne q (List.mem_cons_of_mem _ hq))
              (fun q hq => hlen q (List.mem_cons_of_mem _ hq))
              (by rw [List.length_cons] at hcount; omega) hr' (Gen.ext rfl houtcome)
            rw [Gen.ok_bind, hrest, List.nil_append, hyielded]
      · exact absurd (finalReads_iff.mp hfinal).1 (chunkReads_iff.mp hchunk).1
      · exact absurd hchunk (hno p _)

/-- When only the pieces `qs` verify, each under its own number, and the final tag only behind all
of them, the loop hands out a beginning of what they decode to, and all of it if it returns. -/
theorem decryptStreamAeLoop_le {qs : List (List UInt8)} {r : Reader} {idx offset : Nat}
    {ks : Keystream} {st : Decoder} (hks : ks.At H kb nonce offset)
    (hover : offset + qs.flatten.length ≤ 32 * 2 ^ 32)
    (hchunks : ∀ k data tag, idx + k < 2 ^ 32 →
      verify kb (aeChunkInput nonce aad (idx + k) data) tag = true → qs[k]? = some data)
    (hfinals : ∀ k tag, idx + k < 2 ^ 32 →
      verify kb (aeFinalInput nonce aad (idx + k)) tag = true → k = qs.length) :
    Gen.Releases
      (decryptStreamAeLoop H noise verify key kb nonce (beBytes 4 aad.length) aad r idx ks st)
      (decodeBytes H noise key kb nonce (maskAt H kb nonce offset qs.flatten) st).yielded := by
  induction qs generalizing r idx offset ks st with
  | nil =>
      rcases decryptStreamAeLoop_round r idx ks st with
        ⟨data, r', hread, -⟩ | ⟨-, hrun⟩ | ⟨-, -, e, hrun, -⟩
      · obtain ⟨tag, -, -, hverify⟩ := hread.split
        cases hchunks 0 data tag hread.idx_lt hverify
      · rw [hrun]
        exact ⟨List.nil_prefix, fun a ha => rfl⟩
      · rw [hrun]
        exact .of_error List.nil_prefix e
  | cons p qs ih =>
      rcases decryptStreamAeLoop_round r idx ks st with
        ⟨data, r', hread, hrun⟩ | ⟨hread, -⟩ | ⟨-, -, e, hrun, -⟩
      · obtain ⟨tag, -, -, hverify⟩ := hread.split
        obtain rfl : p = data := Option.some.inj (hchunks 0 data tag hread.idx_lt hverify)
        rw [List.flatten_cons, List.length_append] at hover
        obtain ⟨ks', hks', hopen⟩ :=
          @openChunk_eq H noise key kb nonce offset ks hks p (by omega) st
        rw [hrun, hopen, Gen.bind_assoc, List.flatten_cons, maskAt_append, decodeBytes_append]
        cases hout : (decodeBytes H noise key kb nonce (maskAt H kb nonce offset p) st).outcome
          with
        | error e =>
            rw [Gen.bind_of_error hout, Gen.bind_of_error hout]
            exact .of_error (List.prefix_refl _) e
        | ok mid =>
            rw [Gen.bind_of_ok hout, Gen.bind_of_ok hout]
            apply Gen.Releases.append
            apply ih hks' (by omega)
            · intro k data' tag' hk hverify'
              rw [Nat.add_assoc, Nat.add_comm 1] at hk hverify'
              exact hchunks (k + 1) data' tag' hk hverify'
            · intro k tag' hk hverify'
              rw [Nat.add_assoc, Nat.add_comm 1] at hk hverify'
              exact Nat.succ.inj (hfinals (k + 1) tag' hk hverify')
      · obtain ⟨tag, rest, -, -, hverify⟩ := hread.split
        cases hfinals 0 tag hread.idx_lt hverify
      · rw [hrun]
        exact .of_error List.nil_prefix e

/-! ## The whole stream -/

/-- The decryptor reads a nonce and enters the loop behind it, or raises at once. -/
theorem decryptStreamAe_header {mathSqrt : Nat → Nat} (hpy : validateKey mathSqrt key = .ok ⟨⟩)
    (hkb : keyBytes key = .ok kb) (haad : aad.length < 2 ^ 32) (byteChunks : List (List UInt8)) :
    (∃ nonce r, nonce.length = 16 ∧ byteChunks.flatten = nonce ++ Reader.bytes r ∧
      decryptStreamAe H noise verify mathSqrt byteChunks key aad =
        decryptStreamAeLoop H noise verify key kb nonce (beBytes 4 aad.length) aad r 0 ⟨0, []⟩
          ⟨[], 0, 0⟩) ∨
    (byteChunks.flatten.length < 16 ∧
      ∃ e, decryptStreamAe H noise verify mathSqrt byteChunks key aad = ⟨[], .error e⟩ ∧
        e.IsValueError) := by
  have hbytes : (Reader.mk [] byteChunks).bytes = byteChunks.flatten := List.nil_append _
  rw [decryptStreamAe, hpy, Gen.liftM_ok_bind, hkb, Gen.liftM_ok_bind, toBytes_of_lt haad,
    Gen.liftM_ok_bind]
  by_cases hlen : byteChunks.flatten.length < 16
  · obtain ⟨e, he⟩ := @Reader.read_of_lt ⟨[], byteChunks⟩ nonceSize (by rw [hbytes]; exact hlen)
    rw [he]
    exact Or.inr ⟨hlen, e, rfl, Reader.raisesValueError_read _ _ e he⟩
  · obtain ⟨r, hrlen, hread, hr⟩ := @Reader.read_of_le ⟨[], byteChunks⟩ nonceSize
      (by rw [hbytes]; exact Nat.not_lt.mp hlen)
    rw [hread]
    refine Or.inl ⟨byteChunks.flatten.take 16, r, ?_, ?_, ?_⟩
    · rw [List.length_take]
      omega
    · rw [hr, hbytes]
      exact (List.take_append_drop _ _).symm
    · rw [Gen.liftM_ok_bind]
      simp only [hbytes]
      rfl

/-- However a sealed stream is cut, the decryptor finds its plaintext. -/
theorem decryptStreamAe_aeStream {mathSqrt : Nat → Nat} (hpy : validateKey mathSqrt key = .ok ⟨⟩)
    (hkb : keyBytes key = .ok kb) (hnonce : nonce.length = 16) {cs : Nat} (hcs : 1 ≤ cs)
    {plaintext : List Nat} (hplain : ∀ c ∈ plaintext, c ≤ 0x10FFFF) {raw : List UInt8}
    (hsealed : AeSealed H noise key kb nonce aad cs plaintext raw)
    {byteChunks : List (List UInt8)}
    (hchunks : byteChunks.flatten = (aeStream H kb nonce aad cs raw).flatten) :
    decryptStreamAe H noise (Rust.hmacVerify H) mathSqrt byteChunks key aad =
      ⟨plaintext, .ok ⟨⟩⟩ := by
  have hkey := keyUsable_of_validateKey hpy
  rw [aeStream, List.flatten_cons] at hchunks
  rcases @decryptStreamAe_header H noise (Rust.hmacVerify H) key kb aad mathSqrt hpy hkb
    hsealed.aad_lt byteChunks with ⟨nonce', r, hnonce', hsplit, hrun⟩ | ⟨hshort, -⟩
  · obtain ⟨rfl, hr⟩ :=
      List.append_inj (hsplit.symm.trans hchunks) (hnonce'.trans hnonce.symm)
    rw [hrun]
    obtain ⟨st, hdecode⟩ := hsealed.emitted.decodeBytes_eq hkey hplain
    have hmasked := flatten_pieces hcs (maskAt H kb nonce' 0 raw)
    refine @decryptStreamAeLoop_aeFrames _ _ _ _ _ _ (pieces cs (maskAt H kb nonce' 0 raw)) _ _ _ _
      _ [] .init ?_ ?_ hsealed.length_lt ?_ ?_ _ st ?_
    · rw [hmasked, length_maskAt, Nat.zero_add]
      exact hsealed.emitted.length_le
    · intro p hp
      exact ne_nil_of_mem_pieces hcs hp
    · rw [Nat.zero_add]
      exact hsealed.count_lt
    · rw [hr, Nat.zero_add, List.append_nil, List.flatten_append, List.flatten_singleton]
    · rw [hmasked, maskAt_maskAt]
      exact hdecode
  · rw [hchunks, List.length_append] at hshort
    omega

end Napqes.Python
