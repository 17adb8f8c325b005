import Napqes.Python.Proofs.Failures
import Napqes.Python.Proofs.StreamRoundTrip

/-!
# Which exceptions the stream decoders raise

The stream decoders unmask and decode their input piece by piece. Up to the keystream's end a piece
fails as its first value that is no code point does; behind it, or when the number of a chunk does
not fit its field, a counter does not fit. What comes first decides.
-/

namespace Napqes.Python

open Rust (TagCheck)

variable {H : Hmac} {noise : Noise} {verify : TagCheck} {mathSqrt : Nat → Nat} {key : List Nat}
  {kb nonce aad : List UInt8}

/-! ## Decoded values -/

theorem length_varintBytes_le (buf bs : List UInt8) :
    (varintBytes buf bs).1.length ≤ bs.length := by
  induction bs generalizing buf with
  | nil => exact Nat.le_refl 0
  | cons b bs ih =>
      rw [varintBytes]
      split
      · exact Nat.succ_le_succ (ih [])
      · exact Nat.le_succ_of_le (ih _)

theorem decodeToken_outcome (hkey : Rust.KeyUsable key) {pos idx : Nat} (hpos : pos < 2 ^ 40)
    (hidx : idx ≤ pos) (hfree : noise kb nonce pos = false) (value : Nat) :
    (decodeToken H noise key kb nonce value pos idx).outcome =
      (chrInt (tokenValue H key kb nonce idx value)).map fun _ => ⟨[], pos + 1, idx + 1⟩ := by
  have hclass : isNoisePos noise kb nonce pos = .ok false :=
    isNoisePos_eq_ok_iff.mpr ⟨hpos, hfree⟩
  have hk := (hkey.keyElem_range idx).1
  have haddend : deriveAddend H kb nonce idx (keyElem key idx) =
      .ok (realAddend H key kb nonce idx) :=
    deriveAddend_of_two_le H kb nonce hk (Nat.lt_of_le_of_lt hidx hpos)
  have hvalue : ((value : Int) - realAddend H key kb nonce idx).fdiv (keyElem key idx) =
      tokenValue H key kb nonce idx value := Int.fdiv_eq_ediv_of_nonneg _ (by omega)
  rw [decodeToken, hclass, keyAt_of_ne_nil hkey.nonempty]
  simp only [Gen.liftM_ok_bind, haddend, hvalue]
  cases chrInt (tokenValue H key kb nonce idx value) with
  | ok c => rfl
  | error e => rfl

section
variable (H key kb nonce)

/-- The values of the tokens at the free positions from `pos` on, the first with number `idx`. -/
def valuesFrom (noise : Noise) (pos idx : Nat) (tokens : List Nat) : List Int :=
  (Schedule.free (noise kb nonce) pos (tokens.map (↑))).mapIdx fun i token =>
    tokenValue H key kb nonce (idx + i) token

end

theorem valuesFrom_noise {pos : Nat} (hnoise : noise kb nonce pos = true) (idx value : Nat)
    (values : List Nat) :
    valuesFrom H key kb nonce noise pos idx (value :: values) =
      valuesFrom H key kb nonce noise (pos + 1) idx values := by
  rw [valuesFrom, List.map_cons, Schedule.free, if_pos hnoise, valuesFrom]

theorem valuesFrom_free {pos : Nat} (hfree : noise kb nonce pos = false) (idx value : Nat)
    (values : List Nat) :
    valuesFrom H key kb nonce noise pos idx (value :: values) =
      tokenValue H key kb nonce idx value ::
        valuesFrom H key kb nonce noise (pos + 1) (idx + 1) values := by
  have hshift : ∀ i, idx + 1 + i = idx + (i + 1) := fun i => by omega
  rw [valuesFrom, List.map_cons, Schedule.free, if_neg (by simp [hfree]), List.mapIdx_cons,
    valuesFrom]
  simp only [hshift, Nat.add_zero]

/-- The loop over the tokens converts the values at the free positions, one after the other. -/
theorem decodeTokens_outcome (hkey : Rust.KeyUsable key) {values : List Nat} {pos idx : Nat}
    (hpos : pos + values.length ≤ 2 ^ 40) (hidx : idx ≤ pos) :
    ∃ st, (decodeTokens H noise key kb nonce values ⟨[], pos, idx⟩).outcome =
      ((valuesFrom H key kb nonce noise pos idx values).mapM chrInt).map fun _ => st := by
  induction values generalizing pos idx with
  | nil => exact ⟨⟨[], pos, idx⟩, rfl⟩
  | cons value values ih =>
      rw [List.length_cons] at hpos
      rw [decodeTokens, Gen.bind_outcome]
      cases hclass : noise kb nonce pos with
      | true =>
          rw [valuesFrom_noise hclass, decodeToken_noise (by omega) hclass]
          exact ih (show pos + 1 + values.length ≤ 2 ^ 40 by omega) (Nat.le_succ_of_le hidx)
      | false =>
          obtain ⟨st, hrest⟩ := ih (show pos + 1 + values.length ≤ 2 ^ 40 by omega)
            (show idx + 1 ≤ pos + 1 by omega)
          refine ⟨st, ?_⟩
          rw [valuesFrom_free hclass, decodeToken_outcome hkey (by omega) hidx hclass,
            List.mapM_cons]
          cases chrInt (tokenValue H key kb nonce idx value) with
          | error e => rfl
          | ok c =>
              show (decodeTokens H noise key kb nonce values ⟨[], pos + 1, idx + 1⟩).outcome = _
              rw [hrest, ok_bind]
              cases (valuesFrom H key kb nonce noise (pos + 1) (idx + 1) values).mapM chrInt with
              | error e => rfl
              | ok cs => rfl

section
variable (H noise key nonce)

/-- The values that masked bytes at the front of a stream are decoded to. -/
def streamValues (masked : List UInt8) : List Int :=
  valuesFrom H key (Rust.keyBytes key) nonce noise 0 0
    (varintBytes [] (maskAt H (Rust.keyBytes key) nonce 0 masked)).1

/-- The bytes are decoded to code points. -/
def Readable (masked : List UInt8) : Prop :=
  ∀ v ∈ streamValues H noise key nonce masked, 0 ≤ v ∧ v ≤ 0x10FFFF

end

/-- How the decoding of the front of a stream ends. -/
theorem decodeFront_outcome (hkey : Rust.KeyUsable key) {masked : List UInt8}
    (hlen : masked.length ≤ 32 * 2 ^ 32) :
    ((∃ st, (decodeBytes H noise key (Rust.keyBytes key) nonce
        (maskAt H (Rust.keyBytes key) nonce 0 masked) ⟨[], 0, 0⟩).outcome = .ok st) ↔
      Readable H noise key nonce masked) ∧
    (RaisesValueError (decodeBytes H noise key (Rust.keyBytes key) nonce
        (maskAt H (Rust.keyBytes key) nonce 0 masked) ⟨[], 0, 0⟩).outcome ↔
      ¬ BreaksChr (streamValues H noise key nonce masked)) := by
  have hcount := length_varintBytes_le [] (maskAt H (Rust.keyBytes key) nonce 0 masked)
  rw [length_maskAt] at hcount
  obtain ⟨st, houtcome⟩ := @decodeTokens_outcome H noise key (Rust.keyBytes key) nonce hkey
    (varintBytes [] (maskAt H (Rust.keyBytes key) nonce 0 masked)).1 0 0 (by omega) (Nat.le_refl 0)
  rw [decodeBytes_eq_decodeTokens, Gen.bind_outcome, houtcome, Readable,
    ← raisesValueError_mapM_chrInt_iff]
  change _ ∧ (_ ↔ RaisesValueError ((streamValues H noise key nonce masked).mapM chrInt))
  have hok : (∃ cs, (streamValues H noise key nonce masked).mapM chrInt = .ok cs) ↔
      ∀ v ∈ streamValues H noise key nonce masked, 0 ≤ v ∧ v ≤ 0x10FFFF := by
    simp only [mapM_chrInt_eq_ok_iff, exists_and_left, exists_eq, and_true]
  rw [← hok, streamValues]
  cases (valuesFrom H key (Rust.keyBytes key) nonce noise 0 0
      (varintBytes [] (maskAt H (Rust.keyBytes key) nonce 0 masked)).1).mapM chrInt with
  | error e =>
      refine ⟨iff_of_false ?_ ?_, ?_⟩
      · rintro ⟨st', h⟩
        cases h
      · rintro ⟨cs, h⟩
        cases h
      · exact failsOnly_error_iff.trans failsOnly_error_iff.symm
  | ok cs => exact ⟨iff_of_true ⟨_, rfl⟩ ⟨_, rfl⟩, iff_of_true (failsOnly_ok _) (failsOnly_ok _)⟩

/-! ## Pieces -/

section
variable (H noise key nonce)

/-- A piece that the decoder breaks off in behind `front`: the keystream ends before it does, or
`chr` cannot convert a value of it. -/
def PieceFails (front piece : List UInt8) : Prop :=
  32 * 2 ^ 32 < (front ++ piece).length ∨
    BreaksChr (streamValues H noise key nonce (front ++ piece))

/-- One of the pieces behind `front` fails and those before it are decoded. -/
inductive PiecesFail : List UInt8 → List (List UInt8) → Prop
  | here {front piece : List UInt8} {rest : List (List UInt8)} :
      PieceFails H noise key nonce front piece → PiecesFail front (piece :: rest)
  | later {front piece : List UInt8} {rest : List (List UInt8)} :
      Readable H noise key nonce (front ++ piece) → PiecesFail (front ++ piece) rest →
      PiecesFail front (piece :: rest)

/-- Keystream and decoder when `front` has been decoded. -/
structure Behind (front : List UInt8) (ks : Keystream) (st : Decoder) : Prop where
  keystream : ks.At H (Rust.keyBytes key) nonce front.length
  decoded : (decodeBytes H noise key (Rust.keyBytes key) nonce
    (maskAt H (Rust.keyBytes key) nonce 0 front) ⟨[], 0, 0⟩).outcome = .ok st

end

theorem piecesFail_cons_iff {front piece : List UInt8} {rest : List (List UInt8)} :
    PiecesFail H noise key nonce front (piece :: rest) ↔
      PieceFails H noise key nonce front piece ∨
        Readable H noise key nonce (front ++ piece) ∧
          PiecesFail H noise key nonce (front ++ piece) rest := by
  constructor
  · intro h
    cases h with
    | here hpiece => exact .inl hpiece
    | later hread hrest => exact .inr ⟨hread, hrest⟩
  · rintro (hpiece | ⟨hread, hrest⟩)
    · exact .here hpiece
    · exact .later hread hrest

theorem not_piecesFail_nil {front : List UInt8} : ¬ PiecesFail H noise key nonce front [] := by
  intro h
  cases h

theorem Behind.init : Behind H noise key nonce [] ⟨0, []⟩ ⟨[], 0, 0⟩ := ⟨.init, rfl⟩

/-- The keystream fails with the counter of its blocks. -/
theorem Keystream.pull_error {ks : Keystream} {n : Nat} {e : PyErr}
    (h : ks.pull H kb nonce n = .error e) : ¬ e.IsValueError := by
  induction hleft : n - ks.buf.length using Nat.strong_induction_on generalizing ks with
  | _ left ih =>
      by_cases hshort : ks.buf.length < n
      · by_cases hblock : ks.block < 2 ^ 32
        · rw [Keystream.pull_step n hshort hblock] at h
          refine ih _ ?_ h rfl
          rw [List.length_append, FixedBytes.length_toList]
          omega
        · rw [Keystream.pull, dif_pos hshort, @toBytes_of_not_lt 4 _ hblock] at h
          cases h
          exact id
      · rw [Keystream.pull, dif_neg hshort] at h
        cases h

theorem openChunk_overflow {offset : Nat} {ks : Keystream} (hks : ks.At H kb nonce offset)
    {data : List UInt8} (hlen : 32 * 2 ^ 32 < offset + data.length) (st : Decoder) :
    ∃ e, (openChunk H noise key kb nonce data ks st).outcome = .error e ∧ ¬ e.IsValueError := by
  rw [openChunk, Keystream.mask]
  cases hpull : ks.pull H kb nonce data.length with
  | error e => exact ⟨e, rfl, Keystream.pull_error hpull⟩
  | ok pulled =>
      obtain ⟨hat, hcover⟩ := hks.of_pull hpull
      have hbuf := hat.length_buf
      have hblock := hat.block_le
      omega

/-- What can become of a piece behind `front`. -/
theorem openChunk_cases (hkey : Rust.KeyUsable key) {front data : List UInt8} {ks : Keystream}
    {st : Decoder} (hbehind : Behind H noise key nonce front ks st) :
    (∃ ks' st', (openChunk H noise key (Rust.keyBytes key) nonce data ks st).outcome =
        .ok (ks', st') ∧ Behind H noise key nonce (front ++ data) ks' st' ∧
        Readable H noise key nonce (front ++ data) ∧ ¬ PieceFails H noise key nonce front data) ∨
    (∃ e, (openChunk H noise key (Rust.keyBytes key) nonce data ks st).outcome = .error e ∧
        e.IsValueError ∧ ¬ Readable H noise key nonce (front ++ data) ∧
        ¬ PieceFails H noise key nonce front data) ∨
    (∃ e, (openChunk H noise key (Rust.keyBytes key) nonce data ks st).outcome = .error e ∧
        ¬ e.IsValueError ∧ PieceFails H noise key nonce front data) := by
  by_cases hlen : (front ++ data).length ≤ 32 * 2 ^ 32
  · obtain ⟨hok, hvalue⟩ := @decodeFront_outcome H noise key nonce hkey _ hlen
    have hfails : ¬ PieceFails H noise key nonce front data ↔ _ :=
      (not_congr (or_iff_right (Nat.not_lt.mpr hlen))).trans hvalue.symm
    have hdecode : (decodeBytes H noise key (Rust.keyBytes key) nonce
        (maskAt H (Rust.keyBytes key) nonce 0 (front ++ data)) ⟨[], 0, 0⟩).outcome =
        (decodeBytes H noise key (Rust.keyBytes key) nonce
          (maskAt H (Rust.keyBytes key) nonce front.length data) st).outcome := by
      rw [maskAt_append, Nat.zero_add, decodeBytes_append, Gen.bind_of_ok hbehind.decoded]
    rw [List.length_append] at hlen
    obtain ⟨ks', hks', hopen⟩ := @openChunk_eq H noise key _ nonce _ _ hbehind.keystream _ hlen st
    have houtcome := congrArg Gen.outcome hopen
    rw [Gen.bind_outcome, ← hdecode] at houtcome
    cases hout : (decodeBytes H noise key (Rust.keyBytes key) nonce
        (maskAt H (Rust.keyBytes key) nonce 0 (front ++ data)) ⟨[], 0, 0⟩).outcome with
    | ok st' =>
        rw [hout] at hfails houtcome
        left
        refine ⟨ks', st', houtcome, ⟨?_, hout⟩, hok.mp ⟨st', hout⟩, hfails.mpr (failsOnly_ok _)⟩
        rwa [List.length_append]
    | error e =>
        rw [hout] at hfails houtcome
        right
        by_cases hkind : e.IsValueError
        · refine .inl ⟨e, houtcome, hkind, ?_, hfails.mpr (failsOnly_error_iff.mpr hkind)⟩
          intro hread
          obtain ⟨st', hst⟩ := hok.mpr hread
          rw [hout] at hst
          cases hst
        · refine .inr ⟨e, houtcome, hkind, not_not.mp ?_⟩
          exact fun hno => hkind (failsOnly_error_iff.mp (hfails.mp hno))
  · rw [List.length_append] at hlen
    obtain ⟨e, herror, hkind⟩ := @openChunk_overflow H noise key _ nonce _ _ hbehind.keystream _
      (Nat.lt_of_not_le hlen) st
    refine .inr (.inr ⟨e, herror, hkind, .inl ?_⟩)
    rw [List.length_append]
    exact Nat.lt_of_not_le hlen

/-- A piece and what follows it. -/
theorem raisesValueError_openChunk_bind_iff (hkey : Rust.KeyUsable key) {α : Type}
    {front data : List UInt8} {ks : Keystream} {st : Decoder}
    (hbehind : Behind H noise key nonce front ks st) {f : Keystream × Decoder → Gen PyErr Nat α}
    {P : Prop} (hf : ∀ ks' st', Behind H noise key nonce (front ++ data) ks' st' →
      (RaisesValueError (f (ks', st')).outcome ↔ ¬ P)) :
    RaisesValueError (openChunk H noise key (Rust.keyBytes key) nonce data ks st >>= f).outcome ↔
      ¬ (PieceFails H noise key nonce front data ∨
        Readable H noise key nonce (front ++ data) ∧ P) := by
  rw [Gen.bind_outcome]
  rcases openChunk_cases hkey hbehind with
    ⟨ks', st', hout, hnext, hread, hwhole⟩ | ⟨e, hout, hkind, hread, hwhole⟩ |
      ⟨e, hout, hkind, hpiece⟩
  · rw [hout, or_iff_right hwhole, and_iff_right hread]
    exact hf ks' st' hnext
  · rw [hout, or_iff_right hwhole]
    exact iff_of_true (failsOnly_error_iff.mpr hkind) (fun h => hread h.1)
  · rw [hout]
    apply iff_of_false
    · exact fun h => hkind (failsOnly_error_iff.mp h)
    · exact not_not_intro (.inl hpiece)

/-! ## `decrypt_stream_strict` -/

/-- The pieces that are decoded while the last 32 bytes are held back. -/
def drains : List UInt8 → List (List UInt8) → List (List UInt8)
  | held, [] =>
      let safeLen := held.length - tagSize
      if safeLen > 0 then [held.take safeLen] else []
  | held, chunk :: chunks =>
      let tail := held ++ chunk
      let safeLen := tail.length - tagSize
      if safeLen > 0 then tail.take safeLen :: drains (tail.drop safeLen) chunks
      else drains tail chunks

theorem drain_eq_openChunk (data : List UInt8) (st : StreamDecoder) :
    drain H noise key kb nonce data st =
      openChunk H noise key kb nonce data st.ks st.decoder >>= fun next =>
        ⟨[], .ok ⟨st.h ++ data, next.1, next.2⟩⟩ := by
  rw [drain, openChunk, Gen.bind_assoc]
  simp only [Gen.bind_assoc, Gen.pure_eq, Gen.ok_bind]
  rfl

theorem raisesValueError_finishStream_iff (hkey : Rust.KeyUsable key) {front held : List UInt8}
    {st : StreamDecoder} (hbehind : Behind H noise key nonce front st.ks st.decoder) :
    RaisesValueError
        (finishStream H noise verify key (Rust.keyBytes key) nonce (held, st)).outcome ↔
      ¬ PiecesFail H noise key nonce front (drains held []) := by
  have hcheck : ∀ (st : StreamDecoder) (tag : List UInt8), RaisesValueError
      (if ¬ verify (Rust.keyBytes key) st.h tag then
        Gen.lift (valueError "Authentication failed: invalid HMAC tag.")
      else return ⟨⟩ : Gen PyErr Nat PUnit).outcome := by
    intro st tag
    split
    · exact raisesValueError_valueError _
    · exact failsOnly_ok _
  unfold finishStream
  rw [drains]
  simp only
  by_cases hsafe : held.length - tagSize > 0
  · have hlong : ¬ held.length < tagSize := by omega
    have hbody : ¬ (held.take (held.length - tagSize)).isEmpty = true := by
      rw [List.isEmpty_iff, List.take_eq_nil_iff, ← List.length_eq_zero_iff]
      omega
    rw [if_neg hlong, if_neg hbody, if_pos hsafe, drain_eq_openChunk, piecesFail_cons_iff,
      Gen.bind_assoc]
    apply raisesValueError_openChunk_bind_iff hkey hbehind
    intro ks' st' hnext
    exact iff_of_true (hcheck _ _) not_piecesFail_nil
  · rw [if_neg hsafe]
    refine iff_of_true ?_ not_piecesFail_nil
    split
    case isTrue => exact raisesValueError_valueError _
    case isFalse =>
      rw [Nat.eq_zero_of_not_pos hsafe, List.take_zero, if_pos List.isEmpty_nil, Gen.pure_eq,
        Gen.ok_bind]
      exact hcheck _ _

/-- The sliding loop and what follows it, in any cut. -/
theorem raisesValueError_slideStream_iff (hkey : Rust.KeyUsable key)
    {chunks : List (List UInt8)} {front held : List UInt8} {st : StreamDecoder}
    (hbehind : Behind H noise key nonce front st.ks st.decoder) :
    RaisesValueError (slideStream H noise key (Rust.keyBytes key) nonce chunks held st >>=
        finishStream H noise verify key (Rust.keyBytes key) nonce).outcome ↔
      ¬ PiecesFail H noise key nonce front (drains held chunks) := by
  induction chunks generalizing front held st with
  | nil =>
      rw [slideStream, Gen.pure_eq, Gen.ok_bind]
      exact raisesValueError_finishStream_iff hkey hbehind
  | cons chunk chunks ih =>
      rw [slideStream, drains]
      by_cases hsafe : (held ++ chunk).length - tagSize > 0
      · rw [if_pos hsafe, if_pos hsafe, drain_eq_openChunk, piecesFail_cons_iff, Gen.bind_assoc,
          Gen.bind_assoc]
        apply raisesValueError_openChunk_bind_iff hkey hbehind
        intro ks' st' hnext
        rw [Gen.ok_bind]
        exact @ih _ _ ⟨_, ks', st'⟩ hnext
      · rw [if_neg hsafe, if_neg hsafe]
        exact ih hbehind

section
variable (H noise key)

/-- The inputs on which `decrypt_stream_strict` raises something else than a `ValueError`. -/
def StrictFails (aad : List UInt8) (byteChunks : List (List UInt8)) : Prop :=
  ∃ nonce leftover chunks, readStreamNonce [] byteChunks = .ok (nonce, leftover, chunks) ∧
    (2 ^ 32 ≤ aad.length ∨ PiecesFail H noise key nonce [] (drains leftover chunks))

end

theorem raisesValueError_readStreamNonce (buf : List UInt8) (chunks : List (List UInt8)) :
    RaisesValueError (readStreamNonce buf chunks) := by
  induction chunks generalizing buf with
  | nil => exact raisesValueError_valueError _
  | cons chunk chunks ih =>
      rw [readStreamNonce]
      split
      · exact failsOnly_ok _
      · exact ih _

/-- `decrypt_stream_strict` raises a `ValueError` or returns exactly on the inputs that do not
fail. -/
theorem raisesValueError_decryptStreamStrict_iff {mathSqrt : Nat → Nat}
    (hpy : validateKey mathSqrt key = .ok ⟨⟩) {byteChunks : List (List UInt8)} :
    RaisesValueError (decryptStreamStrict H noise verify mathSqrt byteChunks key aad) ↔
      ¬ StrictFails H noise key aad byteChunks := by
  have hkey := keyUsable_of_validateKey hpy
  have hkb := keyBytes_of_validateKey hpy
  have houtcome :
      RaisesValueError (decryptStreamStrict H noise verify mathSqrt byteChunks key aad) ↔
      RaisesValueError (decryptStream H noise verify mathSqrt byteChunks key aad true).outcome := by
    apply failsOnly_bind_iff.trans
    exact and_iff_left fun _ _ => failsOnly_ok _
  rw [houtcome, StrictFails]
  cases hread : readStreamNonce [] byteChunks with
  | error e =>
      rw [decryptStream, if_neg (by simp), hpy, Gen.liftM_ok_bind, hkb, Gen.liftM_ok_bind, hread,
        Gen.liftM_error_bind]
      apply iff_of_true
      · exact failsOnly_error_iff.mpr (raisesValueError_readStreamNonce _ _ e hread)
      · rintro ⟨nonce, leftover, chunks, h, -⟩
        cases h
  | ok found =>
      obtain ⟨nonce, leftover, chunks⟩ := found
      have hfails : (∃ nonce' leftover' chunks',
          (.ok (nonce, leftover, chunks) : PyM _) = .ok (nonce', leftover', chunks') ∧
          (2 ^ 32 ≤ aad.length ∨ PiecesFail H noise key nonce' [] (drains leftover' chunks'))) ↔
          (2 ^ 32 ≤ aad.length ∨ PiecesFail H noise key nonce [] (drains leftover chunks)) := by
        constructor
        · rintro ⟨nonce', leftover', chunks', h, hfail⟩
          cases h
          exact hfail
        · exact fun h => ⟨nonce, leftover, chunks, rfl, h⟩
      rw [hfails]
      by_cases haad : aad.length < 2 ^ 32
      · rw [decryptStream_eq hpy hkb haad hread, or_iff_right (Nat.not_le_of_lt haad)]
        exact raisesValueError_slideStream_iff hkey .init
      · rw [decryptStream, if_neg (by simp), hpy, Gen.liftM_ok_bind, hkb, Gen.liftM_ok_bind, hread,
          Gen.liftM_ok_bind]
        simp only [streamTagStart, @toBytes_of_not_lt 4 _ haad]
        apply iff_of_false
        · exact not_raisesValueError_overflowError _
        · exact not_not_intro (.inl (Nat.le_of_not_lt haad))

/-! ## `decrypt_stream_ae` -/

section
variable (H noise verify key nonce aad)

/-- The first chunk, from number `idx` on and behind `front`, that is not refused with a
`ValueError`: its number does not fit, or it is authentic and fails. -/
inductive ChunksFail : Nat → List UInt8 → List UInt8 → Prop
  | number {idx : Nat} {front bs : List UInt8} : NumberFails idx bs → ChunksFail idx front bs
  | here {idx : Nat} {front bs data rest : List UInt8} :
      ChunkReads verify (Rust.keyBytes key) nonce aad idx bs data rest →
      PieceFails H noise key nonce front data → ChunksFail idx front bs
  | later {idx : Nat} {front bs data rest : List UInt8} :
      ChunkReads verify (Rust.keyBytes key) nonce aad idx bs data rest →
      Readable H noise key nonce (front ++ data) → ChunksFail (idx + 1) (front ++ data) rest →
      ChunksFail idx front bs

end

theorem chunksFail_iff_of_chunkReads {idx : Nat} {front bs data rest : List UInt8}
    (hchunk : ChunkReads verify (Rust.keyBytes key) nonce aad idx bs data rest) :
    ChunksFail H noise verify key nonce aad idx front bs ↔
      PieceFails H noise key nonce front data ∨ Readable H noise key nonce (front ++ data) ∧
        ChunksFail H noise verify key nonce aad (idx + 1) (front ++ data) rest := by
  constructor
  · intro h
    cases h with
    | number hnumber => exact absurd hnumber.1 (Nat.not_le_of_lt hchunk.idx_lt)
    | here hchunk' hpiece =>
        obtain ⟨rfl, rfl⟩ := hchunk.unique hchunk'
        exact .inl hpiece
    | later hchunk' hread hrest =>
        obtain ⟨rfl, rfl⟩ := hchunk.unique hchunk'
        exact .inr ⟨hread, hrest⟩
  · rintro (hpiece | ⟨hread, hrest⟩)
    · exact .here hchunk hpiece
    · exact .later hchunk hread hrest

theorem chunksFail_iff_of_not_chunkReads {idx : Nat} {front bs : List UInt8}
    (hnone : ∀ data rest, ¬ ChunkReads verify (Rust.keyBytes key) nonce aad idx bs data rest) :
    ChunksFail H noise verify key nonce aad idx front bs ↔ NumberFails idx bs := by
  constructor
  · intro h
    cases h with
    | number hnumber => exact hnumber
    | here hchunk => exact absurd hchunk (hnone _ _)
    | later hchunk => exact absurd hchunk (hnone _ _)
  · exact .number

/-- A round of the loop takes the next chunk; the chunks behind it are in front of the reader. -/
theorem raisesValueError_decryptStreamAeLoop_iff (hkey : Rust.KeyUsable key) {r : Reader}
    {idx : Nat} {front : List UInt8} {ks : Keystream} {st : Decoder}
    (hbehind : Behind H noise key nonce front ks st) :
    RaisesValueError (decryptStreamAeLoop H noise verify key (Rust.keyBytes key) nonce
        (beBytes 4 aad.length) aad r idx ks st).outcome ↔
      ¬ ChunksFail H noise verify key nonce aad idx front r.bytes := by
  induction hlen : r.bytes.length using Nat.strong_induction_on generalizing r idx front ks st with
  | _ len ih =>
      rcases decryptStreamAeLoop_round r idx ks st with
        ⟨data, r', hchunk, hrun⟩ | ⟨hfinal, hrun⟩ | ⟨hnone, -, e, hrun, hkind⟩
      · rw [hrun, chunksFail_iff_of_chunkReads hchunk]
        apply raisesValueError_openChunk_bind_iff hkey hbehind
        intro ks' st' hnext
        refine ih _ ?_ hnext rfl
        obtain ⟨tag, -, hbytes, -⟩ := hchunk.split
        rw [← hlen, hbytes]
        simp only [List.length_append, length_beBytes]
        omega
      · have hnone : ∀ data rest,
            ¬ ChunkReads verify (Rust.keyBytes key) nonce aad idx r.bytes data rest :=
          fun data rest h => (chunkReads_iff.mp h).1 (finalReads_iff.mp hfinal).1
        rw [hrun, chunksFail_iff_of_not_chunkReads hnone]
        exact iff_of_true (failsOnly_ok _) (fun h => Nat.not_le_of_lt hfinal.idx_lt h.1)
      · rw [hrun, chunksFail_iff_of_not_chunkReads hnone, ← hkind]
        exact failsOnly_error_iff

section
variable (H noise verify key)

/-- The inputs on which `decrypt_stream_ae` raises something else than a `ValueError`. -/
def AeFails (aad : List UInt8) (byteChunks : List (List UInt8)) : Prop :=
  2 ^ 32 ≤ aad.length ∨ 16 ≤ byteChunks.flatten.length ∧
    ChunksFail H noise verify key (byteChunks.flatten.take 16) aad 0 []
      (byteChunks.flatten.drop 16)

end

/-- `decrypt_stream_ae` raises a `ValueError` or ends well exactly on the inputs that do not
fail. -/
theorem raisesValueError_decryptStreamAe_iff {mathSqrt : Nat → Nat}
    (hpy : validateKey mathSqrt key = .ok ⟨⟩) {byteChunks : List (List UInt8)} :
    RaisesValueError (decryptStreamAe H noise verify mathSqrt byteChunks key aad).outcome ↔
      ¬ AeFails H noise verify key aad byteChunks := by
  have hkey := keyUsable_of_validateKey hpy
  have hkb := keyBytes_of_validateKey hpy
  rw [AeFails]
  by_cases haad : aad.length < 2 ^ 32
  · rw [or_iff_right (Nat.not_le_of_lt haad)]
    rcases @decryptStreamAe_header H noise verify key _ aad mathSqrt hpy hkb haad byteChunks with
      ⟨nonce, r, hnonce, hsplit, hrun⟩ | ⟨hshort, e, hrun, hkind⟩
    · have hlong : 16 ≤ byteChunks.flatten.length := by
        rw [hsplit, List.length_append, hnonce]
        exact Nat.le_add_right _ _
      rw [hrun, and_iff_right hlong, hsplit, List.take_left' hnonce, List.drop_left' hnonce]
      exact raisesValueError_decryptStreamAeLoop_iff hkey .init
    · rw [hrun]
      exact iff_of_true (failsOnly_error_iff.mpr hkind) fun h => Nat.not_le_of_lt hshort h.1
  · rw [decryptStreamAe, hpy, Gen.liftM_ok_bind, hkb, Gen.liftM_ok_bind,
      @toBytes_of_not_lt 4 _ haad, Gen.liftM_error_bind]
    apply iff_of_false
    · exact not_raisesValueError_overflowError _
    · exact not_not_intro (.inl (Nat.le_of_not_lt haad))

/-! ## All decoders -/

/-- Under an accepted key each decoder returns or raises a `ValueError` exactly on the inputs that
do not fail. -/
theorem decoders_raise_valueError_iff {mathSqrt : Nat → Nat} {U : UnicodeTables}
    {legacyNoise : Int → Noise} (hpy : validateKey mathSqrt key = .ok ⟨⟩) :
    (∀ cypher aad allowLegacyUnauthenticated legacyV6Varint,
      RaisesValueError (decryptStr H noise mathSqrt U legacyNoise cypher key aad
          allowLegacyUnauthenticated legacyV6Varint) ↔
        ¬ StrFails H key U noise legacyNoise aad allowLegacyUnauthenticated legacyV6Varint
          cypher) ∧
    (∀ ciphertext aad allowLegacyUnauthenticated legacyV6Varint,
      RaisesValueError (decryptBytesWith H noise mathSqrt ciphertext key aad
          allowLegacyUnauthenticated legacyV6Varint) ↔
        ¬ BytesFail H noise key aad allowLegacyUnauthenticated legacyV6Varint ciphertext) ∧
    (∀ byteChunks aad,
      RaisesValueError
          (decryptStreamStrict H noise (Rust.hmacVerify H) mathSqrt byteChunks key aad) ↔
        ¬ StrictFails H noise key aad byteChunks) ∧
    (∀ byteChunks aad,
      RaisesValueError
          (decryptStreamAe H noise (Rust.hmacVerify H) mathSqrt byteChunks key aad).outcome ↔
        ¬ AeFails H noise (Rust.hmacVerify H) key aad byteChunks) := by
  refine ⟨?_, ?_, ?_, ?_⟩
  · intro cypher aad allowLegacyUnauthenticated legacyV6Varint
    exact raisesValueError_decryptStr_iff hpy
  · intro ciphertext aad allowLegacyUnauthenticated legacyV6Varint
    exact raisesValueError_decryptBytesWith_iff hpy
  · intro byteChunks aad
    exact raisesValueError_decryptStreamStrict_iff hpy
  · intro byteChunks aad
    exact raisesValueError_decryptStreamAe_iff hpy

/-- The Unicode tables of the ASCII characters. -/
def asciiTables : UnicodeTables where
  isSpace c := isAsciiSpace c || (0x1C ≤ c && c ≤ 0x1F)
  decimal c := if 0x30 ≤ c ∧ c ≤ 0x39 then some (c - 0x30) else none

/-- The v3 text `00:00:80`: its token field is a single byte that announces another one. -/
def truncatedText : List Nat := [0x30, 0x30, 0x3A, 0x30, 0x30, 0x3A, 0x38, 0x30]

theorem strFails_truncatedText :
    StrFails zeroHmac [1000003] asciiTables noNoise (fun _ => noNoise) [] true false
      truncatedText := by
  refine .inr ⟨by decide, rfl, ?_⟩
  have hnonce : bytesFromHex [0x30, 0x30] = .ok [0] := rfl
  have hn : intOfStr asciiTables 16 [0x30, 0x30] = .ok 0 := rfl
  refine (legacyFails_iff rfl hnonce hn).mpr (.inr (.inr ⟨by decide, ?_⟩))
  exact ⟨[0x80], rfl, .inl ⟨[], 0x80, rfl, by decide⟩⟩

/-- The text `00:00:80` raises another exception; the empty text is none of those that fail. -/
theorem decoders_raise_valueError_on_texts :
    ¬ RaisesValueError (decryptStr zeroHmac noNoise Nat.sqrt asciiTables (fun _ => noNoise)
        truncatedText [1000003] [] true false) ∧
      ¬ StrFails zeroHmac [1000003] asciiTables noNoise (fun _ => noNoise) [] true false [] := by
  have hmain := (@decoders_raise_valueError_iff zeroHmac noNoise [1000003] Nat.sqrt asciiTables
    (fun _ => noNoise) validateKey_1000003).1
  refine ⟨?_, ?_⟩
  · rw [hmain]
    exact not_not_intro strFails_truncatedText
  · rw [← hmain, decryptStr, if_pos (by decide), show b64decode [] = .ok [] from rfl, ok_bind,
      decryptBytesWith, validateKey_1000003, ok_bind, if_neg (by decide), if_pos rfl,
      decodeV5Unauth, if_pos (by decide)]
    exact raisesValueError_valueError _

/-- A truncated token of a v3 text is no `ValueError`. -/
theorem decrypt_str_raises_indexError :
    ¬ ∀ (H : Hmac) (noise : Noise) (mathSqrt : Nat → Nat) (U : UnicodeTables)
      (legacyNoise : Int → Noise) (key : List Nat), validateKey mathSqrt key = .ok ⟨⟩ →
      ∀ cypher aad allowLegacyUnauthenticated legacyV6Varint,
      RaisesValueError (decryptStr H noise mathSqrt U legacyNoise cypher key aad
        allowLegacyUnauthenticated legacyV6Varint) := by
  intro hclaim
  have hraises := hclaim zeroHmac noNoise Nat.sqrt asciiTables (fun _ => noNoise) [1000003]
    validateKey_1000003 truncatedText [] true false
  exact (raisesValueError_decryptStr_iff validateKey_1000003).mp hraises strFails_truncatedText

end Napqes.Python
