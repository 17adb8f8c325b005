import Napqes.Rust.Proofs.Domains
import Napqes.Rust.Proofs.StreamDecrypt

/-!
# Integrity of the v8 stream under an ideal MAC

Honest encryptors have produced some streams under one key, each with its own nonce. With an
ideal MAC in the place of the two stream tags, where a tag verifies only on an input that one
of these encryptors tagged, the decryptor accepts no byte string but those streams.
-/

namespace Napqes.Rust

/-- A run of an honest encryptor under the key `primes`, `skFmt`, with the stream it made. -/
structure HonestStream (H : Hmac) (primes : List Nat) (skFmt : FixedBytes 32) where
  plaintext : Str
  nonce : FixedBytes nonceSize
  aad : Slice
  f : Nat
  stream : List UInt8
  frame_ok : validateStreamV8Frame f = .ok ⟨⟩
  made : encryptStreamAeV8Inner H plaintext primes skFmt nonce aad.bytes f = .ok stream

variable {H : Hmac} {primes : List Nat} {skFmt : FixedBytes 32}

namespace HonestStream

/-- The inputs this run fed to `compute_stream_v8_chunk_tag` and
`compute_stream_v8_sentinel_tag`. -/
def tagInputs (run : HonestStream H primes skFmt) : List (List UInt8) :=
  streamTagInputs H primes skFmt run.aad.bytes run.f run.nonce run.plaintext.codepoints

/-- The frames this run emitted. -/
def frames (run : HonestStream H primes skFmt) : List Frame :=
  sealFrames H primes skFmt run.aad.bytes run.f run.nonce 0
    (pieces run.f run.plaintext.codepoints)

theorem frame_range (run : HonestStream H primes skFmt) : 1 ≤ run.f ∧ run.f ≤ 16384 :=
  (validateStreamV8Frame_iff run.f).mp run.frame_ok

/-- The stream is the one of the format, and its counts fit their fields. -/
theorem stream_eq (hkey : KeyValid primes) (run : HonestStream H primes skFmt) :
    run.stream = sealStream H primes skFmt run.aad.bytes run.f run.nonce
        run.plaintext.codepoints ∧
      run.frames.length < 2 ^ 32 ∧ run.plaintext.codepoints.length < 2 ^ 64 := by
  have hmade := run.made
  have hf := run.frame_range
  rw [encryptStreamAeV8Inner_eq hkey hf] at hmade
  split at hmade
  case isTrue hcount =>
    have hbound := (length_pieces_bounds hf.1 run.plaintext.codepoints).2
    have hmul : (pieces run.f run.plaintext.codepoints).length * run.f < 2 ^ 32 * 16384 :=
      Nat.mul_lt_mul_of_lt_of_le hcount hf.2 (by decide)
    refine ⟨by simpa using hmade.symm, ?_, by omega⟩
    rw [frames, length_sealFrames]
    exact hcount
  case isFalse => simp [chunkLimit, err] at hmade

end HonestStream

/-- An ideal MAC for a log of tagged inputs: only the true tag of a logged input verifies. -/
structure IdealMac (H : Hmac) (key : List UInt8) (log : List (List UInt8)) (verify : TagCheck) :
    Prop where
  sound : ∀ input tag, verify key input tag = true → input ∈ log ∧ tag = (H key input).toList

/-- The MAC check that consults the log before it compares. -/
def logVerify (H : Hmac) (log : List (List UInt8)) : TagCheck := fun key input tag =>
  decide (input ∈ log) && ctEqBytes tag (H key input)

theorem idealMac_logVerify (key : List UInt8) (log : List (List UInt8)) :
    IdealMac H key log (logVerify H log) where
  sound input tag h := by
    simpa [logVerify, ctEqBytes] using h

/-- The ideal MAC refuses nothing honest: every stream of a run is accepted. -/
theorem decryptStreamAeV8Inner_logVerify (hkey : KeyValid primes)
    {runs : List (HonestStream H primes skFmt)} {run : HonestStream H primes skFmt}
    (hrun : run ∈ runs) :
    decryptStreamAeV8Inner H (logVerify H (runs.flatMap HonestStream.tagInputs)) run.stream
      primes skFmt run.aad.bytes = .ok run.plaintext := by
  obtain ⟨hstream, hcount, -⟩ := run.stream_eq hkey
  rw [HonestStream.frames, length_sealFrames] at hcount
  rw [decryptStreamAeV8Inner_eq_ok_iff hkey, hstream]
  refine streamOpensTo_sealStream hkey run.frame_range ?_
    run.plaintext.isScalar_of_mem_codepoints hcount
  intro input hin
  have hlog : input ∈ runs.flatMap HonestStream.tagInputs :=
    List.mem_flatMap.mpr ⟨run, hrun, hin⟩
  simp [logVerify, ctEqBytes, hlog]

/-! ## Main result -/

variable {verify : TagCheck}

/-- A verified tag input belongs to a run; the nonce says to which one. -/
theorem run_of_tagInput {runs : List (HonestStream H primes skFmt)}
    (hmac : IdealMac H skFmt.toList (runs.flatMap HonestStream.tagInputs) verify)
    {input tag : List UInt8} (h : verify skFmt.toList input tag = true) :
    ∃ run ∈ runs, input ∈ run.tagInputs ∧ tag = (H skFmt.toList input).toList := by
  obtain ⟨hlog, htag⟩ := hmac.sound input tag h
  obtain ⟨run, hrun, hin⟩ := List.mem_flatMap.mp hlog
  exact ⟨run, hrun, hin, htag⟩

/-- A sentinel that verifies is the sentinel of a run. -/
theorem sentinel_of_run (hkey : KeyValid primes) {run : HonestStream H primes skFmt}
    {aad : Slice} {f count total : Nat} {nonce : FixedBytes nonceSize} (hf : f < 2 ^ 32)
    (hcount : count < 2 ^ 32) (htotal : total < 2 ^ 64)
    (h : sentinelTagInput f nonce count aad.bytes total ∈ run.tagInputs) :
    f = run.f ∧ nonce = run.nonce ∧ count = run.frames.length ∧ aad = run.aad ∧
      total = run.plaintext.codepoints.length := by
  obtain ⟨-, hframes, hlen⟩ := run.stream_eq hkey
  have hrange := run.frame_range
  rw [HonestStream.tagInputs, streamTagInputs, List.mem_append] at h
  rcases h with h | h
  · -- A chunk tag input has another domain byte.
    obtain ⟨k, fr, -, heq⟩ := exists_of_mem_frameTagInputs h
    exact absurd (List.cons.inj heq).1 (by decide)
  · obtain ⟨hff, hnn, hcc, haa, htt⟩ := streamTag_inj hf (by omega) hcount hframes
      (List.cons.inj (List.mem_singleton.mp h)).2
    exact ⟨hff, hnn, hcc, haa, beBytes_inj (w := 8) htotal hlen htt⟩

/-- A chunk that verifies under the nonce of a run is the chunk of that run with its index. -/
theorem chunk_of_run (hkey : KeyValid primes) {run : HonestStream H primes skFmt} {aad : Slice}
    {f idx : Nat} {nonce : FixedBytes nonceSize} {body : List UInt8} (hf : f < 2 ^ 32)
    (hidx : idx < 2 ^ 32) (h : chunkTagInput f nonce idx aad.bytes body ∈ run.tagInputs) :
    nonce = run.nonce ∧ ∃ fr, run.frames[idx]? = some fr ∧ body = fr.body := by
  obtain ⟨-, hframes, -⟩ := run.stream_eq hkey
  have hrange := run.frame_range
  rw [HonestStream.tagInputs, streamTagInputs, List.mem_append] at h
  rcases h with h | h
  · obtain ⟨k, fr, hk, heq⟩ := exists_of_mem_frameTagInputs h
    rw [Nat.zero_add] at heq
    have hlt : k < run.frames.length := (List.getElem?_eq_some_iff.mp hk).1
    obtain ⟨-, hnn, rfl, -, rfl⟩ := streamTag_inj hf (by omega) hidx (by omega)
      (List.cons.inj heq).2
    exact ⟨hnn, fr, hk, rfl⟩
  · exact absurd (List.cons.inj (List.mem_singleton.mp h)).1 (by decide)

/-- Integrity: under an ideal MAC the decryptor accepts only streams that an honest encryptor
made, with the associated data it was made with. -/
theorem decryptStreamAeV8Inner_accepts_only_honest (H : Hmac) (primes : List Nat)
    (hkey : validateKey primes = .ok ⟨⟩) (skFmt : FixedBytes 32)
    (runs : List (HonestStream H primes skFmt))
    (hnonces : (runs.map HonestStream.nonce).Nodup) (verify : TagCheck)
    (hmac : IdealMac H skFmt.toList (runs.flatMap HonestStream.tagInputs) verify)
    (stream : List UInt8) (aad : Slice) (s : Str)
    (haccept : decryptStreamAeV8Inner H verify stream primes skFmt aad.bytes = .ok s) :
    ∃ run ∈ runs, run.aad = aad ∧ run.stream = stream := by
  have hvalid := (validateKey_iff primes).mp hkey
  obtain ⟨f, nonce, frames, total, tag, hf, rest, rfl, htail⟩ :=
    (decryptStreamAeV8Inner_eq_ok_iff hvalid stream s).mp haccept
  have hcount : frames.length < 2 ^ 32 := by
    simpa using htail.frames_open.lt (Nat.two_pow_pos 32)
  -- The sentinel fixes the run: header, chunk count, associated data and codepoint count.
  have hsentinel := htail.tag_ok
  have hsplit := htail.split
  rw [Nat.zero_add] at hsentinel hsplit
  obtain ⟨run, hrun, hin, rfl⟩ := run_of_tagInput hmac hsentinel
  obtain ⟨rfl, rfl, hframes, rfl, rfl⟩ :=
    sentinel_of_run hvalid (by omega) hcount htail.total_lt hin
  refine ⟨run, hrun, rfl, ?_⟩
  -- Every frame is the one this run emitted at the same index.
  have hbytes : frames.map Frame.bytes = run.frames.map Frame.bytes := by
    apply List.ext_getElem?
    intro k
    rw [List.getElem?_map, List.getElem?_map]
    by_cases hk : k < frames.length
    · have hfr := htail.frames_open.getElem? (List.getElem?_eq_getElem hk)
      rw [Nat.zero_add] at hfr
      obtain ⟨run', hrun', hin', htag⟩ := run_of_tagInput hmac hfr.tag_ok
      obtain ⟨hnonce, fr, hget, hbody⟩ := chunk_of_run hvalid (by omega) (by omega) hin'
      obtain rfl : run = run' := List.inj_on_of_nodup_map hnonces hrun hrun' hnonce
      have hsealed := tag_of_mem_sealFrames hget
      rw [Nat.zero_add, ← hbody, ← htag] at hsealed
      rw [List.getElem?_eq_getElem hk, hget, Option.map_some, Option.map_some, Frame.bytes,
        Frame.bytes, hbody, hsealed]
    · rw [List.getElem?_eq_none (by omega), List.getElem?_eq_none (by omega)]
  have hall : framesBytes frames = framesBytes run.frames := by
    rw [framesBytes, framesBytes, List.flatMap_def, List.flatMap_def, hbytes]
  rw [(run.stream_eq hvalid).1, hsplit, hall, hframes]
  rfl

/-- A stream of three codepoints in frames of two, for concrete instances. -/
def threeCharStream (b : UInt8) :
    HonestStream zeroHmac [1000003] (.ofList 32 []) where
  plaintext := ['a', 'b', 'c']
  nonce := .ofList 16 [b]
  aad := ⟨[7], by decide⟩
  f := 2
  stream := sealStream zeroHmac [1000003] (.ofList 32 []) [7] 2 (.ofList 16 [b])
    (Str.codepoints ['a', 'b', 'c'])
  frame_ok := rfl
  made := by
    rw [encryptStreamAeV8Inner_eq keyValid_1000003 (by decide), if_pos]
    rw [length_pieces (by decide)]
    decide

/-- With two honest streams in the log, the first is accepted and is found among them. -/
theorem accepts_only_honest_of_two_streams :
    ∃ run ∈ [threeCharStream 1, threeCharStream 2], run.aad = (threeCharStream 1).aad ∧
      run.stream = (threeCharStream 1).stream :=
  decryptStreamAeV8Inner_accepts_only_honest zeroHmac [1000003] validateKey_1000003
    (.ofList 32 []) [threeCharStream 1, threeCharStream 2] (by decide) _
    (idealMac_logVerify _ _) _ _ _
    (decryptStreamAeV8Inner_logVerify keyValid_1000003 (by simp))

end Napqes.Rust
