import Napqes.Python.Proofs.StreamFrames
import Napqes.Python.Proofs.StreamV8Encrypt
import Napqes.Python.Proofs.TagInputs
import Napqes.Rust.Proofs.StreamIntegrity

/-!
# Integrity of the Python streams under an ideal MAC

Honest encryptors have written some streams under one key, each with its own nonce. With an ideal
MAC in the place of the tags of chunks and of ends, where a tag verifies only on an input that one
of these encryptors tagged, the decryptors hand out a beginning of one of their plaintexts at most,
and return only behind the whole of one.
-/

namespace Napqes.Python

open Rust (TagCheck)

/-! ## Streams with a tag on every chunk -/

/-- The bytes of a frame between its length field and its tag. -/
def frameData (frame : List UInt8) : List UInt8 := (frame.drop 4).take (frame.length - 36)

/-- A run of `encrypt_stream_ae` that has ended well. -/
structure HonestAe (H : Hmac) (noise : Noise) (mathSqrt : Nat → Nat) (key : List Nat) where
  plaintext : List Nat
  nonce : FixedBytes 16
  aad : List UInt8
  chunkSize : Int
  plaintext_le : ∀ c ∈ plaintext, c ≤ 0x10FFFF
  ended : (encryptStreamAe H noise mathSqrt plaintext key aad nonce.toList chunkSize).outcome =
    .ok ⟨⟩

variable {H : Hmac} {noise : Noise} {verify : TagCheck} {mathSqrt : Nat → Nat} {key : List Nat}

theorem frameData_of_append {field data tag : List UInt8} (hfield : field.length = 4)
    (htag : tag.length = 32) : frameData (field ++ (data ++ tag)) = data := by
  rw [frameData, List.drop_left' hfield]
  apply List.take_left'
  simp only [List.length_append, hfield, htag]
  omega

/-- A flushing loop whose slices are not positive does not end well. -/
theorem flushFull_ne_ok {kb nonce aad : List UInt8} {cs : Int} (hcs : cs ≤ 0)
    (pending : List UInt8) (idx : Nat) (out : List UInt8 × Nat) :
    (flushFull H kb nonce (beBytes 4 aad.length) aad cs pending idx).outcome ≠ .ok out := by
  induction hleft : 2 ^ 32 - idx using Nat.strong_induction_on generalizing idx pending with
  | _ left ih =>
      rw [flushFull_round (show cs ≤ pending.length by omega)]
      intro h
      obtain ⟨frame, hframe, h⟩ := Gen.bind_outcome_eq_ok.mp h
      change flushChunk H kb nonce (beBytes 4 aad.length) aad idx (sliceTo cs pending) = _ at hframe
      obtain ⟨hidx, -, -⟩ := of_flushChunk hframe
      exact ih (2 ^ 32 - (idx + 1)) (by omega) _ _ rfl h

namespace HonestAe

/-- The run of the encryptor. -/
def run (r : HonestAe H noise mathSqrt key) : Gen PyErr (List UInt8) PUnit :=
  encryptStreamAe H noise mathSqrt r.plaintext key r.aad r.nonce.toList r.chunkSize

/-- The inputs of the tags in the stream, chunk by chunk and at the end. -/
def tagInputs (r : HonestAe H noise mathSqrt key) : List (List UInt8) :=
  let frames := chunkFrames r.run
  frames.mapIdx (fun idx frame => aeChunkInput r.nonce.toList r.aad idx (frameData frame)) ++
    [aeFinalInput r.nonce.toList r.aad frames.length]

theorem validateKey_eq_ok (r : HonestAe H noise mathSqrt key) :
    validateKey mathSqrt key = .ok ⟨⟩ := by
  have hended := r.ended
  rw [encryptStreamAe] at hended
  obtain ⟨⟨⟩, hpy, -⟩ := Gen.bind_outcome_eq_ok.mp hended
  exact hpy

theorem keyBytes_eq_ok (r : HonestAe H noise mathSqrt key) :
    keyBytes key = .ok (Rust.keyBytes key) :=
  keyBytes_of_validateKey r.validateKey_eq_ok

/-- Without a positive chunk size only the empty plaintext gets to the end. -/
theorem plaintext_eq_nil (r : HonestAe H noise mathSqrt key) (hcs : r.chunkSize ≤ 0) :
    r.plaintext = [] := by
  have hended := r.ended
  rw [encryptStreamAe, r.validateKey_eq_ok, Gen.liftM_ok_bind, r.keyBytes_eq_ok,
    Gen.liftM_ok_bind] at hended
  obtain ⟨aadLen4, haadLen, hended⟩ := Gen.bind_outcome_eq_ok.mp hended
  change toBytes 4 r.aad.length = _ at haadLen
  obtain ⟨-, rfl⟩ := toBytes_eq_ok_iff.mp haadLen
  obtain ⟨⟨⟩, -, hended⟩ := Gen.bind_outcome_eq_ok.mp hended
  obtain ⟨out, hchars, -⟩ := Gen.bind_outcome_eq_ok.mp hended
  cases hplain : r.plaintext with
  | nil => rfl
  | cons c plaintext =>
      rw [hplain, encryptStreamAeChars] at hchars
      obtain ⟨⟨raw, pos⟩, -, hchars⟩ := Gen.bind_outcome_eq_ok.mp hchars
      obtain ⟨⟨masked, ks⟩, -, hchars⟩ := Gen.bind_outcome_eq_ok.mp hchars
      obtain ⟨out', hflush, -⟩ := Gen.bind_outcome_eq_ok.mp hchars
      exact absurd hflush (flushFull_ne_ok hcs _ _ _)

/-- The stream is that of the format, for a positive chunk size. -/
theorem sealed (r : HonestAe H noise mathSqrt key) :
    ∃ cs raw, 1 ≤ cs ∧
      AeSealed H noise key (Rust.keyBytes key) r.nonce.toList r.aad cs r.plaintext raw ∧
      r.run.yielded = aeStream H (Rust.keyBytes key) r.nonce.toList r.aad cs raw := by
  obtain ⟨cs, hcs, hrun⟩ : ∃ cs : Nat, 1 ≤ cs ∧
      r.run = encryptStreamAe H noise mathSqrt r.plaintext key r.aad r.nonce.toList cs := by
    by_cases hpos : 1 ≤ r.chunkSize
    · obtain ⟨cs, hcs⟩ := Int.eq_ofNat_of_zero_le (show 0 ≤ r.chunkSize by omega)
      refine ⟨cs, by omega, ?_⟩
      rw [run, hcs]
    · -- Nothing is cut where there is no character, whatever the chunk size is.
      refine ⟨1, Nat.le_refl 1, ?_⟩
      rw [run, r.plaintext_eq_nil (by omega)]
      rfl
  have hended : r.run.outcome = .ok ⟨⟩ := r.ended
  rw [hrun] at hended
  obtain ⟨raw, hsealed, hyielded⟩ :=
    sealed_of_encryptStreamAe r.validateKey_eq_ok r.keyBytes_eq_ok hcs hended
  exact ⟨cs, raw, hcs, hsealed, by rw [hrun, hyielded]⟩

/-- The tag inputs of a run by its pieces. -/
theorem tagInputs_eq (r : HonestAe H noise mathSqrt key) {cs : Nat} {raw : List UInt8}
    (hyielded : r.run.yielded = aeStream H (Rust.keyBytes key) r.nonce.toList r.aad cs raw) :
    r.tagInputs =
      let ps := pieces cs (maskAt H (Rust.keyBytes key) r.nonce.toList 0 raw)
      ps.mapIdx (aeChunkInput r.nonce.toList r.aad) ++
        [aeFinalInput r.nonce.toList r.aad ps.length] := by
  have hframes : chunkFrames r.run = aeFrames H (Rust.keyBytes key) r.nonce.toList r.aad 0
      (pieces cs (maskAt H (Rust.keyBytes key) r.nonce.toList 0 raw)) := by
    have hended : r.run.outcome = .ok ⟨⟩ := r.ended
    rw [chunkFrames, hended, hyielded, aeStream]
    exact List.dropLast_concat
  generalize pieces cs (maskAt H (Rust.keyBytes key) r.nonce.toList 0 raw) = ps at hframes
  rw [tagInputs]
  simp only [hframes, length_aeFrames]
  congr 1
  apply List.ext_getElem?
  intro k
  rw [List.getElem?_mapIdx, List.getElem?_mapIdx, getElem?_aeFrames, Option.map_map]
  apply congrArg (Option.map · ps[k]?)
  funext data
  rw [Function.comp_apply, Nat.zero_add, aeFrame,
    frameData_of_append (length_beBytes 4 _) (by simp)]

theorem mem_tagInputs (r : HonestAe H noise mathSqrt key) {cs : Nat} {raw : List UInt8}
    (hyielded : r.run.yielded = aeStream H (Rust.keyBytes key) r.nonce.toList r.aad cs raw)
    {input : List UInt8} (h : input ∈ r.tagInputs) :
    (∃ k data, (pieces cs (maskAt H (Rust.keyBytes key) r.nonce.toList 0 raw))[k]? = some data ∧
      input = aeChunkInput r.nonce.toList r.aad k data) ∨
    input = aeFinalInput r.nonce.toList r.aad
      (pieces cs (maskAt H (Rust.keyBytes key) r.nonce.toList 0 raw)).length := by
  rw [r.tagInputs_eq hyielded] at h
  rcases List.mem_append.mp h with h | h
  · obtain ⟨k, hk, rfl⟩ := List.mem_mapIdx.mp h
    exact .inl ⟨k, _, List.getElem?_eq_getElem hk, rfl⟩
  · exact .inr (List.mem_singleton.mp h)

end HonestAe

/-! ## `decrypt_stream_ae` -/

theorem aeChunkInput_inj {n n' : FixedBytes 16} {aad aad' data data' : List UInt8} {k k' : Nat}
    (haad : aad.length < 2 ^ 32) (haad' : aad'.length < 2 ^ 32) (hk : k < 2 ^ 32)
    (hk' : k' < 2 ^ 32)
    (h : aeChunkInput n.toList aad k data = aeChunkInput n'.toList aad' k' data') :
    n = n' ∧ aad = aad' ∧ k = k' ∧ data = data' := by
  have hitem := @TagItem.chunk_inj n n' ⟨aad, haad⟩ ⟨aad', haad'⟩ ⟨k, hk⟩ ⟨k', hk'⟩ data data' h
  obtain ⟨hn, ha, hidx, hdata⟩ := TagItem.chunk.inj hitem
  exact ⟨hn, congrArg ShortAad.bytes ha, congrArg Fin.val hidx, hdata⟩

theorem aeFinalInput_inj {n n' : FixedBytes 16} {aad aad' : List UInt8} {k k' : Nat}
    (haad : aad.length < 2 ^ 32) (haad' : aad'.length < 2 ^ 32) (hk : k < 2 ^ 32)
    (hk' : k' < 2 ^ 32) (h : aeFinalInput n.toList aad k = aeFinalInput n'.toList aad' k') :
    n = n' ∧ aad = aad' ∧ k = k' := by
  have hitem := @TagItem.final_inj n n' ⟨aad, haad⟩ ⟨aad', haad'⟩ ⟨k, hk⟩ ⟨k', hk'⟩ h
  obtain ⟨hn, ha, hidx⟩ := TagItem.final.inj hitem
  exact ⟨hn, congrArg ShortAad.bytes ha, congrArg Fin.val hidx⟩

section
variable {runs : List (HonestAe H noise mathSqrt key)} {nonce : FixedBytes 16} {aad : List UInt8}

/-- A chunk that a run has tagged is the piece of that run with its number. -/
theorem HonestAe.chunk_of_mem {r : HonestAe H noise mathSqrt key} {cs : Nat} {raw : List UInt8}
    (hsealed : AeSealed H noise key (Rust.keyBytes key) r.nonce.toList r.aad cs r.plaintext raw)
    (hyielded : r.run.yielded = aeStream H (Rust.keyBytes key) r.nonce.toList r.aad cs raw)
    (haad : aad.length < 2 ^ 32) {idx : Nat} (hidx : idx < 2 ^ 32) {data : List UInt8}
    (h : aeChunkInput nonce.toList aad idx data ∈ r.tagInputs) :
    r.nonce = nonce ∧ r.aad = aad ∧
      (pieces cs (maskAt H (Rust.keyBytes key) r.nonce.toList 0 raw))[idx]? = some data := by
  rcases r.mem_tagInputs hyielded h with ⟨k, data', hk, heq⟩ | heq
  · have hlt := (List.getElem?_eq_some_iff.mp hk).1
    obtain ⟨rfl, rfl, rfl, rfl⟩ := aeChunkInput_inj haad hsealed.aad_lt hidx
      (Nat.lt_trans hlt hsealed.count_lt) heq
    exact ⟨rfl, rfl, hk⟩
  · exact absurd (List.cons.inj heq).1 (by decide)

/-- An end that a run has tagged is the end of that run. -/
theorem HonestAe.final_of_mem {r : HonestAe H noise mathSqrt key} {cs : Nat} {raw : List UInt8}
    (hsealed : AeSealed H noise key (Rust.keyBytes key) r.nonce.toList r.aad cs r.plaintext raw)
    (hyielded : r.run.yielded = aeStream H (Rust.keyBytes key) r.nonce.toList r.aad cs raw)
    (haad : aad.length < 2 ^ 32) {count : Nat} (hcount : count < 2 ^ 32)
    (h : aeFinalInput nonce.toList aad count ∈ r.tagInputs) :
    r.nonce = nonce ∧ r.aad = aad ∧
      count = (pieces cs (maskAt H (Rust.keyBytes key) r.nonce.toList 0 raw)).length := by
  rcases r.mem_tagInputs hyielded h with ⟨k, data, -, heq⟩ | heq
  · exact absurd (List.cons.inj heq).1 (by decide)
  · obtain ⟨rfl, rfl, rfl⟩ := aeFinalInput_inj haad hsealed.aad_lt hcount hsealed.count_lt heq
    exact ⟨rfl, rfl, rfl⟩

/-- The loop behind the nonce and with the associated data of a run. -/
theorem HonestAe.releases (hnonces : (runs.map HonestAe.nonce).Nodup)
    (hmac : ∀ input tag, verify (Rust.keyBytes key) input tag = true →
      input ∈ runs.flatMap HonestAe.tagInputs)
    {r : HonestAe H noise mathSqrt key} (hr : r ∈ runs) (reader : Reader) :
    Gen.Releases
      (decryptStreamAeLoop H noise verify key (Rust.keyBytes key) r.nonce.toList
        (beBytes 4 r.aad.length) r.aad reader 0 ⟨0, []⟩ ⟨[], 0, 0⟩) r.plaintext := by
  obtain ⟨cs, raw, hcs, hsealed, hyielded⟩ := r.sealed
  have hkey := keyUsable_of_validateKey r.validateKey_eq_ok
  obtain ⟨st, hdecode⟩ := hsealed.emitted.decodeBytes_eq hkey r.plaintext_le
  have hmasked := flatten_pieces hcs (maskAt H (Rust.keyBytes key) r.nonce.toList 0 raw)
  -- The nonce of a logged input says which run it belongs to.
  have hlogged : ∀ input tag, verify (Rust.keyBytes key) input tag = true →
      ∃ r' ∈ runs, input ∈ r'.tagInputs := fun input tag h =>
    List.mem_flatMap.mp (hmac input tag h)
  have hreleases := @decryptStreamAeLoop_le H noise verify key (Rust.keyBytes key) r.nonce.toList
    r.aad (pieces cs (maskAt H (Rust.keyBytes key) r.nonce.toList 0 raw)) reader 0 0 ⟨0, []⟩
    ⟨[], 0, 0⟩ .init (by rw [hmasked, length_maskAt, Nat.zero_add]; exact hsealed.emitted.length_le)
    (by
      intro k data tag hk hverify
      rw [Nat.zero_add] at hk hverify
      obtain ⟨r', hr', hin⟩ := hlogged _ tag hverify
      obtain ⟨cs', raw', -, hsealed', hyielded'⟩ := r'.sealed
      have hnonce := (HonestAe.chunk_of_mem hsealed' hyielded' hsealed.aad_lt hk hin).1
      obtain rfl := List.inj_on_of_nodup_map hnonces hr' hr hnonce
      exact (HonestAe.chunk_of_mem hsealed hyielded hsealed.aad_lt hk hin).2.2)
    (by
      intro k tag hk hverify
      rw [Nat.zero_add] at hk hverify
      obtain ⟨r', hr', hin⟩ := hlogged _ tag hverify
      obtain ⟨cs', raw', -, hsealed', hyielded'⟩ := r'.sealed
      have hnonce := (HonestAe.final_of_mem hsealed' hyielded' hsealed.aad_lt hk hin).1
      obtain rfl := List.inj_on_of_nodup_map hnonces hr' hr hnonce
      exact (HonestAe.final_of_mem hsealed hyielded hsealed.aad_lt hk hin).2.2)
  rwa [hmasked, maskAt_maskAt, hdecode] at hreleases

/-- `decrypt_stream_ae` releases only beginnings of honest plaintexts. -/
theorem decryptStreamAe_releasesOneOf (hnonces : (runs.map HonestAe.nonce).Nodup)
    (hmac : ∀ input tag, verify (Rust.keyBytes key) input tag = true →
      input ∈ runs.flatMap HonestAe.tagInputs) (byteChunks : List (List UInt8))
    (aad : List UInt8) :
    Gen.ReleasesOneOf (decryptStreamAe H noise verify mathSqrt byteChunks key aad)
      fun text => ∃ r ∈ runs, r.aad = aad ∧ r.plaintext = text := by
  cases hpy : validateKey mathSqrt key with
  | error e =>
      rw [decryptStreamAe, hpy, Gen.liftM_error_bind]
      exact .of_error e
  | ok u =>
      have hkb := keyBytes_of_validateKey hpy
      by_cases haad : aad.length < 2 ^ 32
      · rcases @decryptStreamAe_header H noise verify key _ aad mathSqrt hpy hkb haad
            byteChunks with
          ⟨nonceBytes, reader, hnonce, -, hrun⟩ | ⟨-, e, hrun, -⟩
        · obtain ⟨nonce, rfl⟩ : ∃ nonce : FixedBytes 16, nonce.toList = nonceBytes :=
            ⟨⟨nonceBytes, hnonce⟩, rfl⟩
          rw [hrun]
          by_cases hknown : ∃ r ∈ runs, r.nonce = nonce ∧ r.aad = aad
          · obtain ⟨r, hr, rfl, rfl⟩ := hknown
            exact (HonestAe.releases hnonces hmac hr reader).oneOf ⟨r, hr, rfl, rfl⟩
          · -- No tag verifies behind this nonce, so the first round raises.
            rcases @decryptStreamAeLoop_round H noise verify key (Rust.keyBytes key) nonce.toList
              aad reader 0 ⟨0, []⟩ ⟨[], 0, 0⟩ with
              ⟨data, reader', hread, -⟩ | ⟨hread, -⟩ | ⟨-, -, e, hround, -⟩
            · obtain ⟨tag, -, -, hverify⟩ := hread.split
              obtain ⟨r, hr, hin⟩ := List.mem_flatMap.mp (hmac _ tag hverify)
              obtain ⟨cs, raw, -, hsealed, hyielded⟩ := r.sealed
              obtain ⟨rfl, rfl, -⟩ :=
                HonestAe.chunk_of_mem hsealed hyielded haad hread.idx_lt hin
              exact absurd ⟨r, hr, rfl, rfl⟩ hknown
            · obtain ⟨tag, rest, -, -, hverify⟩ := hread.split
              obtain ⟨r, hr, hin⟩ := List.mem_flatMap.mp (hmac _ tag hverify)
              obtain ⟨cs, raw, -, hsealed, hyielded⟩ := r.sealed
              obtain ⟨rfl, rfl, -⟩ :=
                HonestAe.final_of_mem hsealed hyielded haad hread.idx_lt hin
              exact absurd ⟨r, hr, rfl, rfl⟩ hknown
            · rw [hround]
              exact .of_error e
        · rw [hrun]
          exact .of_error e
      · rw [decryptStreamAe, hpy, Gen.liftM_ok_bind, hkb, Gen.liftM_ok_bind,
          @toBytes_of_not_lt 4 _ haad, Gen.liftM_error_bind]
        exact .of_error _

end

/-! ## Runs of the v8 encryptor -/

/-- A run of `_encrypt_stream_ae_v8_with_nonce` that has ended well. -/
structure HonestAeV8 (H : Hmac) (mathSqrt : Nat → Nat) (primes : List Nat)
    (sk : FixedBytes 32) where
  plaintext : List Nat
  nonce : FixedBytes 16
  aad : List UInt8
  frameCodepoints : Int
  plaintext_le : ∀ c ∈ plaintext, c ≤ 0x10FFFF
  ended : (encryptStreamAeV8WithNonce H mathSqrt plaintext primes sk.toList nonce.toList aad
    frameCodepoints).outcome = .ok ⟨⟩

variable {primes : List Nat} {sk : FixedBytes 32}

namespace HonestAeV8

/-- The run of the encryptor. -/
def run (r : HonestAeV8 H mathSqrt primes sk) : Gen PyErr (List UInt8) PUnit :=
  encryptStreamAeV8WithNonce H mathSqrt r.plaintext primes sk.toList r.nonce.toList r.aad
    r.frameCodepoints

/-- The inputs of the tags in the stream, chunk by chunk and at the sentinel. -/
def tagInputs (r : HonestAeV8 H mathSqrt primes sk) : List (List UInt8) :=
  let f := r.frameCodepoints.toNat
  let frames := chunkFrames r.run
  frames.mapIdx (fun idx frame =>
      Rust.chunkTagInput f r.nonce.toList idx r.aad (frameData frame)) ++
    [Rust.sentinelTagInput f r.nonce.toList frames.length r.aad r.plaintext.length]

/-- The frames of the format for the plaintext. -/
def frames (r : HonestAeV8 H mathSqrt primes sk) : List Frame :=
  sealFrames H primes (Rust.deriveFormatSubkey H sk Rust.formatStreamAeV8) r.aad
    r.frameCodepoints.toNat r.nonce 0 (pieces r.frameCodepoints.toNat r.plaintext)

theorem mem_tagInputs (hkey : KeyValid primes) (r : HonestAeV8 H mathSqrt primes sk)
    {input : List UInt8} (h : input ∈ r.tagInputs) :
    (∃ k fr, r.frames[k]? = some fr ∧ input =
      Rust.chunkTagInput r.frameCodepoints.toNat r.nonce.toList k r.aad fr.body) ∨
    input = Rust.sentinelTagInput r.frameCodepoints.toNat r.nonce.toList r.frames.length r.aad
      r.plaintext.length := by
  have hyielded := (sealed_of_encryptStreamAeV8 hkey sk r.plaintext_le r.ended).2
  have hended : r.run.outcome = .ok ⟨⟩ := r.ended
  have hchunks : chunkFrames r.run = r.frames.map Frame.bytes := by
    rw [chunkFrames, hended, run, hyielded, v8Stream]
    exact List.dropLast_concat
  rw [tagInputs] at h
  simp only [hchunks, List.length_map] at h
  rcases List.mem_append.mp h with h | h
  · obtain ⟨k, hk, rfl⟩ := List.mem_mapIdx.mp h
    rw [List.length_map] at hk
    refine .inl ⟨k, r.frames[k], List.getElem?_eq_getElem hk, ?_⟩
    have htag := tag_of_mem_sealFrames (List.getElem?_eq_getElem hk)
    have htagLen : r.frames[k].tag.length = 32 := by rw [htag, FixedBytes.length_toList]
    rw [List.getElem_map, Frame.bytes, frameData_of_append (length_beBytes 4 _) htagLen]
  · exact .inr (List.mem_singleton.mp h)

end HonestAeV8

/-! ## `decrypt_stream_ae_v8` -/

theorem prefix_concat_of_getElem? {α : Type} {xs ys : List α} {x : α} (h : xs <+: ys)
    (hx : ys[xs.length]? = some x) : xs ++ [x] <+: ys := by
  obtain ⟨rest, rfl⟩ := h
  rw [List.getElem?_append_right (Nat.le_refl _), Nat.sub_self] at hx
  cases rest with
  | nil => cases hx
  | cons y rest =>
      obtain rfl := Option.some.inj hx
      exact ⟨rest, by rw [List.append_assoc]; rfl⟩

section
variable {skFmt : FixedBytes 32} {aad : List UInt8} {f : Nat} {nonce : FixedBytes 16}
  {plaintext : List Nat}

/-- The chunks in front of another one have no filler. -/
theorem flatten_prefix_of_concat (hf : 1 ≤ f) {chunks : List (List Nat)} {cps : List Nat}
    (h : chunks ++ [cps] <+:
      (sealFrames H primes skFmt aad f nonce 0 (pieces f plaintext)).map Frame.cps)
    (hlength : ∀ p ∈ chunks, p.length = f) : chunks.flatten <+: plaintext := by
  obtain ⟨filler, hflat⟩ := @flatten_sealFrames H primes skFmt aad f nonce hf 0 plaintext
  obtain ⟨rest, hrest⟩ := h
  have hcount := congrArg List.length hrest
  simp only [List.length_append, List.length_singleton, List.length_map, length_sealFrames]
    at hcount
  have hbound := (length_pieces_bounds hf plaintext).1
  have hlen : chunks.flatten.length ≤ plaintext.length := by
    rw [length_flatten_of_forall hlength]
    have hle : chunks.length * f ≤ ((pieces f plaintext).length - 1) * f :=
      Nat.mul_le_mul_right f (by omega)
    omega
  refine List.prefix_of_prefix_length_le ?_ (List.prefix_append plaintext filler) hlen
  rw [← hflat, ← hrest]
  simp only [List.flatten_append, List.append_assoc]
  exact List.prefix_append _ _

/-- A frame that is read is the one of the stream with its number. -/
theorem getElem?_of_frameReads (hkey : KeyValid primes) (hsealed : V8Sealed aad f plaintext)
    (hchunks : ∀ idx body tag, idx < 2 ^ 32 →
      verify skFmt.toList (Rust.chunkTagInput f nonce.toList idx aad body) tag = true →
      ∃ fr, (sealFrames H primes skFmt aad f nonce 0 (pieces f plaintext))[idx]? = some fr ∧
        body = fr.body)
    {idx : Nat} {bs : List UInt8} {cps : List Nat}
    (h : FrameReads H verify primes skFmt aad f nonce idx bs cps) :
    ((sealFrames H primes skFmt aad f nonce 0 (pieces f plaintext)).map Frame.cps)[idx]? =
      some cps := by
  have hf := hsealed.frame_range
  have hopen := h.opened
  simp only [openFrame] at hopen
  split at hopen
  case isTrue hif =>
    obtain ⟨fr, hget, hbody⟩ := hchunks _ _ _ h.idx_lt hif.2
    have hframes := @framesOpen_sealFrames H primes skFmt aad f nonce (fun _ _ _ => true) hkey 0
      (pieces f plaintext) (fun _ _ => rfl) (fun p hp => (mem_pieces hf.1 hp).1)
      (fun p hp c hc => hsealed.scalar c ((mem_pieces hf.1 hp).2 c hc))
      (by rw [Nat.zero_add]; exact hsealed.count_lt)
    have hopened := (hframes.getElem? hget).opened
    rw [Nat.zero_add, ← hbody, hopen] at hopened
    rw [List.getElem?_map, hget, Option.map_some, hopened]
  case isFalse => cases hopen

theorem SentinelReads.total_lt {idx delivered total : Nat} {held : Option (List Nat)}
    {bs : List UInt8} (h : SentinelReads H verify skFmt aad f nonce idx held delivered bs total) :
    total < 2 ^ 64 := by
  have hcount := beNat_lt ((bs.drop 4).take 8)
  have height : ((bs.drop 4).take 8).length = 8 := by
    have := h.le_length
    rw [List.length_take, List.length_drop]
    omega
  rw [height] at hcount
  rw [h.total_eq]
  exact Nat.xor_lt_two_pow (n := 64) hcount (Rust.u64FromBe8_lt _)

/-- Where only the frames of a stream verify, each under its own number, and its sentinel only
behind all of them, the loop hands out what is missing of the plaintext, as far as it gets. -/
theorem loopAfter_le (hkey : KeyValid primes) (hsealed : V8Sealed aad f plaintext)
    (hchunks : ∀ idx body tag, idx < 2 ^ 32 →
      verify skFmt.toList (Rust.chunkTagInput f nonce.toList idx aad body) tag = true →
      ∃ fr, (sealFrames H primes skFmt aad f nonce 0 (pieces f plaintext))[idx]? = some fr ∧
        body = fr.body)
    (hsentinel : ∀ count total tag, count < 2 ^ 32 → total < 2 ^ 64 →
      verify skFmt.toList (Rust.sentinelTagInput f nonce.toList count aad total) tag = true →
      count = (pieces f plaintext).length ∧ total = plaintext.length)
    {chunks : List (List Nat)} (hread : ChunksRead f chunks)
    (hfront : chunks <+:
      (sealFrames H primes skFmt aad f nonce 0 (pieces f plaintext)).map Frame.cps)
    (reader : Reader) :
    Gen.Releases (loopAfter H verify primes skFmt aad f nonce chunks reader)
      (plaintext.drop chunks.dropLast.flatten.length) := by
  induction hlen : reader.bytes.length using Nat.strong_induction_on
    generalizing chunks reader with
  | _ len ih =>
      rcases @loopAfter_round H verify primes skFmt aad f nonce hkey hsealed.frame_range chunks
        hread reader with
        ⟨cps, reader', hframe, hbytes, hmore, hrun⟩ | ⟨total, hsent, hrun⟩ | ⟨-, -, e, hrun⟩
      · have hlonger :=
          prefix_concat_of_getElem? hfront (getElem?_of_frameReads hkey hsealed hchunks hframe)
        obtain ⟨rest, hrest⟩ :=
          flatten_prefix_of_concat hsealed.frame_range.1 hlonger hread.length
        have hnext : (chunks ++ [cps]).dropLast.flatten = chunks.flatten := by
          rw [List.dropLast_concat]
        have hheld : chunks.dropLast.flatten ++ chunks.getLast?.getD [] = chunks.flatten :=
          (chunks_concat chunks cps).1.trans hnext
        -- What is held back is all real: it is handed out in front of the rest.
        have htext : plaintext.drop chunks.dropLast.flatten.length = chunks.getLast?.getD [] ++
            plaintext.drop (chunks ++ [cps]).dropLast.flatten.length := by
          rw [hnext, ← hrest, List.drop_left, ← hheld, List.append_assoc, List.drop_left]
        have hshorter : reader'.bytes.length < len := by
          have := hframe.le_length
          rw [hbytes, List.length_drop]
          omega
        have hreleases := ih _ hshorter hmore hlonger reader' rfl
        rw [hrun, htext]
        exact hreleases.append _
      · obtain ⟨hcount, rfl⟩ := hsentinel _ _ _ hsent.idx_lt hsent.total_lt hsent.tag_ok
        obtain ⟨filler, hflat⟩ :=
          @flatten_sealFrames H primes skFmt aad f nonce hsealed.frame_range.1 0 plaintext
        have hall := hfront.eq_of_length (by rw [hcount, List.length_map, length_sealFrames])
        have hcountOk := countOk_length hsealed.frame_range.1 plaintext
        rw [← hcount] at hcountOk
        have hout := flatten_append_take_of_countOk hread.length hcountOk
        rw [congrArg List.flatten hall, hflat, List.take_left] at hout
        have htext : plaintext.drop chunks.dropLast.flatten.length =
            (chunks.getLast?.getD []).take
              (plaintext.length - chunks.dropLast.flatten.length) := by
          conv_lhs => rw [← hout, List.drop_left]
        rw [hrun, htext]
        exact ⟨List.prefix_refl _, fun _ _ => rfl⟩
      · rw [hrun]
        exact .of_error List.nil_prefix e

/-- A chunk that a run has tagged is the frame of that run with its number. -/
theorem HonestAeV8.chunk_of_mem (hkey : KeyValid primes) {r : HonestAeV8 H mathSqrt primes sk}
    (haad : aad.length < 2 ^ 64) {idx : Nat} (hf : f < 2 ^ 32) (hidx : idx < 2 ^ 32)
    {body : List UInt8}
    (h : Rust.chunkTagInput f nonce.toList idx aad body ∈ r.tagInputs) :
    f = r.frameCodepoints.toNat ∧ nonce = r.nonce ∧ aad = r.aad ∧
      ∃ fr, r.frames[idx]? = some fr ∧ body = fr.body := by
  have hsealed := (sealed_of_encryptStreamAeV8 hkey sk r.plaintext_le r.ended).1
  have hrange := hsealed.frame_range
  rcases r.mem_tagInputs hkey h with ⟨k, fr, hk, heq⟩ | heq
  · have hlt := (List.getElem?_eq_some_iff.mp hk).1
    rw [HonestAeV8.frames, length_sealFrames] at hlt
    obtain ⟨hff, hnn, rfl, haa, rfl⟩ := @Rust.streamTag_inj f r.frameCodepoints.toNat idx k nonce
      r.nonce ⟨aad, haad⟩ ⟨r.aad, hsealed.aad_lt⟩ _ _ hf (by omega) hidx
      (Nat.lt_trans hlt hsealed.count_lt) (List.cons.inj heq).2
    exact ⟨hff, hnn, congrArg Slice.bytes haa, fr, hk, rfl⟩
  · exact absurd (List.cons.inj heq).1 (by decide)

/-- A sentinel that a run has tagged is the sentinel of that run. -/
theorem HonestAeV8.sentinel_of_mem (hkey : KeyValid primes)
    {r : HonestAeV8 H mathSqrt primes sk} (haad : aad.length < 2 ^ 64) {count total : Nat}
    (hf : f < 2 ^ 32) (hcount : count < 2 ^ 32) (htotal : total < 2 ^ 64)
    (h : Rust.sentinelTagInput f nonce.toList count aad total ∈ r.tagInputs) :
    f = r.frameCodepoints.toNat ∧ nonce = r.nonce ∧ aad = r.aad ∧
      count = (pieces r.frameCodepoints.toNat r.plaintext).length ∧
      total = r.plaintext.length := by
  have hsealed := (sealed_of_encryptStreamAeV8 hkey sk r.plaintext_le r.ended).1
  have hrange := hsealed.frame_range
  have hlen : r.plaintext.length < 2 ^ 64 := by
    have hbound := (length_pieces_bounds hrange.1 r.plaintext).2
    have hmul := Nat.mul_lt_mul_of_lt_of_le hsealed.count_lt hrange.2 (by decide)
    omega
  rcases r.mem_tagInputs hkey h with ⟨k, fr, -, heq⟩ | heq
  · exact absurd (List.cons.inj heq).1 (by decide)
  · rw [HonestAeV8.frames, length_sealFrames] at heq
    obtain ⟨hff, hnn, hcc, haa, htt⟩ := @Rust.streamTag_inj f r.frameCodepoints.toNat count _ nonce
      r.nonce ⟨aad, haad⟩ ⟨r.aad, hsealed.aad_lt⟩ _ _ hf (by omega) hcount hsealed.count_lt
      (List.cons.inj heq).2
    exact ⟨hff, hnn, congrArg Slice.bytes haa, hcc, beBytes_inj (w := 8) htotal hlen htt⟩

variable {runs : List (HonestAeV8 H mathSqrt primes sk)}

/-- The loop behind the header and with the associated data of a run. -/
theorem HonestAeV8.releases (hkey : KeyValid primes)
    (hnonces : (runs.map HonestAeV8.nonce).Nodup)
    (hmac : ∀ input tag,
      verify (Rust.deriveFormatSubkey H sk Rust.formatStreamAeV8).toList input tag = true →
      input ∈ runs.flatMap HonestAeV8.tagInputs)
    {r : HonestAeV8 H mathSqrt primes sk} (hr : r ∈ runs) (reader : Reader) :
    Gen.Releases
      (loopAfter H verify primes (Rust.deriveFormatSubkey H sk Rust.formatStreamAeV8) r.aad
        r.frameCodepoints.toNat r.nonce [] reader) r.plaintext := by
  have hsealed := (sealed_of_encryptStreamAeV8 hkey sk r.plaintext_le r.ended).1
  have hrange := hsealed.frame_range
  refine loopAfter_le hkey hsealed ?_ ?_ .nil List.nil_prefix reader
  · intro idx body tag hidx hverify
    obtain ⟨r', hr', hin⟩ := List.mem_flatMap.mp (hmac _ tag hverify)
    obtain ⟨-, hnonce, -, fr, hk, hbody⟩ :=
      HonestAeV8.chunk_of_mem hkey hsealed.aad_lt (by omega) hidx hin
    obtain rfl := List.inj_on_of_nodup_map hnonces hr hr' hnonce
    exact ⟨fr, hk, hbody⟩
  · intro count total tag hcount htotal hverify
    obtain ⟨r', hr', hin⟩ := List.mem_flatMap.mp (hmac _ tag hverify)
    obtain ⟨-, hnonce, -, hcc, htt⟩ :=
      HonestAeV8.sentinel_of_mem hkey hsealed.aad_lt (by omega) hcount htotal hin
    obtain rfl := List.inj_on_of_nodup_map hnonces hr hr' hnonce
    exact ⟨hcc, htt⟩

/-- `decrypt_stream_ae_v8` releases only beginnings of honest plaintexts. -/
theorem decryptStreamAeV8_releasesOneOf (hkey : validateKey mathSqrt primes = .ok ⟨⟩ →
      KeyValid primes) (hnonces : (runs.map HonestAeV8.nonce).Nodup)
    (hmac : ∀ input tag,
      verify (Rust.deriveFormatSubkey H sk Rust.formatStreamAeV8).toList input tag = true →
      input ∈ runs.flatMap HonestAeV8.tagInputs)
    (byteChunks : List (List UInt8)) (aad : List UInt8) :
    Gen.ReleasesOneOf (decryptStreamAeV8 H verify mathSqrt byteChunks primes sk.toList aad)
      fun text => ∃ r ∈ runs, r.aad = aad ∧ r.plaintext = text := by
  cases hpy : validateKey mathSqrt primes with
  | error e =>
      rw [decryptStreamAeV8, hpy, Gen.liftM_error_bind]
      exact .of_error e
  | ok u =>
      have hvalid := hkey hpy
      rcases @decryptStreamAeV8_header H verify primes aad mathSqrt hpy sk byteChunks with
        ⟨f, nonce, reader, hf, -, hrun⟩ | ⟨-, e, hrun⟩
      · rw [hrun]
        by_cases hknown : ∃ r ∈ runs, f = r.frameCodepoints.toNat ∧ nonce = r.nonce ∧ aad = r.aad
        · obtain ⟨r, hr, rfl, rfl, rfl⟩ := hknown
          exact (HonestAeV8.releases hvalid hnonces hmac hr reader).oneOf ⟨r, hr, rfl, rfl⟩
        · -- No tag verifies behind this header, so the first round raises.
          rcases @loopAfter_round H verify primes
              (Rust.deriveFormatSubkey H sk Rust.formatStreamAeV8) aad f nonce hvalid hf [] .nil
              reader with
            ⟨cps, reader', hframe, -⟩ | ⟨total, hsent, -⟩ | ⟨-, -, e, hround⟩
          · have hopen := hframe.opened
            simp only [openFrame] at hopen
            split at hopen
            case isTrue hif =>
              obtain ⟨r, hr, hin⟩ := List.mem_flatMap.mp (hmac _ _ hif.2)
              obtain ⟨hff, hnn, haa, -⟩ := HonestAeV8.chunk_of_mem hvalid hframe.aad_lt
                (by omega) hframe.idx_lt hin
              exact absurd ⟨r, hr, hff, hnn, haa⟩ hknown
            case isFalse => cases hopen
          · obtain ⟨r, hr, hin⟩ := List.mem_flatMap.mp (hmac _ _ hsent.tag_ok)
            obtain ⟨hff, hnn, haa, -⟩ := HonestAeV8.sentinel_of_mem hvalid hsent.aad_lt
              (by omega) hsent.idx_lt hsent.total_lt hin
            exact absurd ⟨r, hr, hff, hnn, haa⟩ hknown
          · rw [hround]
            exact .of_error e
      · rw [hrun]
        exact .of_error e

end

/-! ## Main result -/

/-- Under an ideal MAC over what honest encryptors have tagged, each stream with a nonce of its own,
both decryptors hand out nothing or a beginning of one honest plaintext with their associated data,
and return only behind the whole of one. -/
theorem ae_decoders_release_only_honest (H : Hmac) (noise : Noise) (verify : TagCheck)
    (mathSqrt : Nat → Nat) (hsqrt : ∀ n ≤ 14999999, mathSqrt n = n.sqrt) (primes : List Nat)
    (sk : FixedBytes 32)
    (runs : List (HonestAe H noise mathSqrt primes))
    (hnonces : (runs.map HonestAe.nonce).Nodup)
    (hmac : ∀ input tag, verify (Rust.keyBytes primes) input tag = true →
      input ∈ runs.flatMap HonestAe.tagInputs)
    (runsV8 : List (HonestAeV8 H mathSqrt primes sk))
    (hnoncesV8 : (runsV8.map HonestAeV8.nonce).Nodup)
    (hmacV8 : ∀ input tag,
      verify (Rust.deriveFormatSubkey H sk Rust.formatStreamAeV8).toList input tag = true →
      input ∈ runsV8.flatMap HonestAeV8.tagInputs)
    (byteChunks : List (List UInt8)) (aad : List UInt8) :
    Gen.ReleasesOneOf (decryptStreamAe H noise verify mathSqrt byteChunks primes aad)
      (fun text => ∃ r ∈ runs, r.aad = aad ∧ r.plaintext = text) ∧
    Gen.ReleasesOneOf (decryptStreamAeV8 H verify mathSqrt byteChunks primes sk.toList aad)
      (fun text => ∃ r ∈ runsV8, r.aad = aad ∧ r.plaintext = text) := by
  constructor
  · exact decryptStreamAe_releasesOneOf hnonces hmac byteChunks aad
  · exact decryptStreamAeV8_releasesOneOf (keyValid_of_validateKey hsqrt) hnoncesV8 hmacV8
      byteChunks aad

/-- A stream of three characters in chunks of four bytes, for concrete instances. -/
def threeCharAe (b : UInt8) : HonestAe zeroHmac noNoise Nat.sqrt [1000003] where
  plaintext := [97, 98, 99]
  nonce := .ofList 16 [b]
  aad := [7]
  chunkSize := (4 : Nat)
  plaintext_le := by decide
  ended := by
    have hruns : ∀ pos, ∃ i, noNoise (Rust.keyBytes [1000003])
        (FixedBytes.ofList 16 [b]).toList (pos + i) = false := fun pos => ⟨0, rfl⟩
    have hlen : (rawTokens zeroHmac [1000003] hruns [97, 98, 99]).length ≤ 3 * (3 + 1) := by
      apply length_rawTokens_le hruns (fun pos => rfl)
      intro idx c hc
      apply realToken_1000003_lt
      simp only [List.mem_cons, List.not_mem_nil, or_false] at hc
      omega
    apply encryptStreamAe_outcome hruns validateKey_1000003
      (keyBytes_of_keyValid keyValid_1000003) (by decide) (by decide) (by omega)
    · rw [length_pieces (by decide), length_maskAt]
      omega
    · intro p hp
      have hle := (mem_pieces (by decide) hp).1
      omega

/-- A v8 stream of one character in a frame of one, for concrete instances. -/
def oneCharAeV8 (b : UInt8) : HonestAeV8 zeroHmac Nat.sqrt [1000003] (.ofList 32 []) where
  plaintext := [97]
  nonce := .ofList 16 [b]
  aad := [7]
  frameCodepoints := 1
  plaintext_le := by decide
  ended := by
    have hframe : validateStreamV8Frame 1 = .ok ⟨⟩ := rfl
    have hemit := @emitChunk_eq_ok zeroHmac [1000003]
      (Rust.deriveFormatSubkey zeroHmac (.ofList 32 []) Rust.formatStreamAeV8) [7] 1
      (.ofList 16 [b]) keyValid_1000003 (by decide) [97] rfl (by decide) 0 (by decide) (by decide)
    have hloop : encryptStreamLoop zeroHmac [1000003]
        (Rust.deriveFormatSubkey zeroHmac (.ofList 32 []) Rust.formatStreamAeV8).toList
        (FixedBytes.ofList 16 [b]).toList [7] 1 [97] [] 0 0 =
          liftM (emitChunk zeroHmac [1000003]
            (Rust.deriveFormatSubkey zeroHmac (.ofList 32 []) Rust.formatStreamAeV8).toList
            (FixedBytes.ofList 16 [b]).toList [7] 1 [97] 0) >>= fun frame =>
            Gen.yield frame >>= fun _ => pure ([], 1, 1) := rfl
    rw [encryptStreamAeV8WithNonce_eq validateKey_1000003 _ hframe]
    simp only [Int.toNat_one, hloop, hemit, Gen.liftM_ok_bind, Gen.yield_bind, Gen.pure_eq,
      List.isEmpty_nil, not_true_eq_false, if_false, Gen.ok_bind]
    rw [closeStreamV8_eq (by decide) (by decide) (by decide) (by decide)]

/-- The MAC check with a log of its own for the key of the v7 streams, for concrete instances. -/
def twoKeyVerify : TagCheck := fun key input tag =>
  if key = Rust.keyBytes [1000003] then
    Rust.logVerify zeroHmac ([threeCharAe 1, threeCharAe 2].flatMap HonestAe.tagInputs) key input
      tag
  else
    Rust.logVerify zeroHmac ([oneCharAeV8 1, oneCharAeV8 2].flatMap HonestAeV8.tagInputs) key input
      tag

/-- With two honest streams of each kind in the logs, read in two parts. -/
theorem ae_decoders_release_only_honest_of_two_streams :
    Gen.ReleasesOneOf
      (decryptStreamAe zeroHmac noNoise twoKeyVerify Nat.sqrt
        [(threeCharAe 1).run.yielded.flatten, [0]] [1000003] [7])
      (fun text => ∃ r ∈ [threeCharAe 1, threeCharAe 2], r.aad = [7] ∧ r.plaintext = text) ∧
    Gen.ReleasesOneOf
      (decryptStreamAeV8 zeroHmac twoKeyVerify Nat.sqrt
        [(threeCharAe 1).run.yielded.flatten, [0]] [1000003] (FixedBytes.ofList 32 []).toList [7])
      (fun text => ∃ r ∈ [oneCharAeV8 1, oneCharAeV8 2], r.aad = [7] ∧ r.plaintext = text) := by
  have hother : (Rust.deriveFormatSubkey zeroHmac (.ofList 32 []) Rust.formatStreamAeV8).toList ≠
      Rust.keyBytes [1000003] := by
    intro h
    have hlen := congrArg List.length h
    rw [FixedBytes.length_toList] at hlen
    exact absurd hlen (by decide)
  apply ae_decoders_release_only_honest zeroHmac noNoise twoKeyVerify Nat.sqrt (fun _ _ => rfl)
    [1000003] (.ofList 32 []) [threeCharAe 1, threeCharAe 2] (by decide) ?_
    [oneCharAeV8 1, oneCharAeV8 2] (by decide) ?_
  · intro input tag h
    rw [twoKeyVerify, if_pos rfl] at h
    exact ((Rust.idealMac_logVerify _ _).sound input tag h).1
  · intro input tag h
    rw [twoKeyVerify, if_neg hother] at h
    exact ((Rust.idealMac_logVerify _ _).sound input tag h).1

end Napqes.Python
