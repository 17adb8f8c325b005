import Napqes.Rust.Proofs.OtFrame
import Napqes.Rust.Proofs.StreamIntegrity

/-!
# One key for blocks and streams (`rust/src/key.rs:177-211`, `rust/src/lib.rs:2404-2426`)

A `NapqesKey` serves v8 blocks and v8 streams. The tags of both are computed under subkeys of one
`sk`, and nothing is assumed about these two subkeys, not even that they differ: the domain byte
in front of every tag input keeps the formats apart. Under an ideal MAC each decoder accepts what
was sealed with this key in its own format, and nothing else.
-/

namespace Napqes.Rust

/-- `derive_format_subkey(sk, FORMAT_BLOCK_V8)`. -/
abbrev NapqesKey.blockSubkey (H : Hmac) (key : NapqesKey) : FixedBytes 32 :=
  deriveFormatSubkey H key.sk formatBlockV8

/-- `derive_format_subkey(sk, FORMAT_STREAM_AE_V8)`. -/
abbrev NapqesKey.streamSubkey (H : Hmac) (key : NapqesKey) : FixedBytes 32 :=
  deriveFormatSubkey H key.sk formatStreamAeV8

/-- A call of `encrypt_bytes_v8_with_profile_key` with what it returned. -/
structure KeyBlock (H : Hmac) (key : NapqesKey) where
  message : Str
  aad : Slice
  padProfile : PadProfile
  ciphertext : List UInt8
  made : encryptBytesV8WithProfileKey H message key aad.bytes padProfile = .ok ciphertext

/-- A call of `encrypt_stream_ae_v8_key` with the nonce it drew and what it returned. -/
structure KeyStream (H : Hmac) (key : NapqesKey) where
  message : Str
  aad : Slice
  frameCodepoints : Nat
  nonce : FixedBytes nonceSize
  stream : List UInt8
  made : encryptStreamAeV8Key H message key aad.bytes frameCodepoints (.ok nonce) = .ok stream

/-- The two formats of a key. -/
inductive KeyFormat where
  | block
  | stream
  deriving DecidableEq

/-- The decoder of a format. -/
def KeyFormat.decrypt (H : Hmac) (verify : TagCheck) (key : NapqesKey) (bytes aad : List UInt8) :
    KeyFormat → RustM String Str
  | block => decryptBytesV8Key H verify bytes key aad
  | stream => decryptStreamAeV8Key H verify bytes key aad

variable {H : Hmac} {key : NapqesKey} {verify : TagCheck}

namespace KeyBlock

/-- The input this call fed to `compute_auth_tag`. -/
def tagInput (block : KeyBlock H key) : List UInt8 :=
  let payload := block.ciphertext.take (block.ciphertext.length - tagSize)
  authTagInput block.aad.bytes (payload.take nonceSize) (payload.drop nonceSize)

/-- What this call made is the ciphertext of the format, in a block the message fits in. -/
theorem sealed (block : KeyBlock H key) : ∃ b, ReachableBlock b ∧
    block.message.codepoints.length < b ∧
    block.message.codepoints.length ≤ maxPlaintextCodepoints ∧
    block.ciphertext = sealBlock H key.primes (key.blockSubkey H).toList block.aad.bytes
      block.message b ∧
    block.tagInput = blockTagInput H key.primes (key.blockSubkey H).toList block.aad.bytes
      block.message b := by
  obtain ⟨b, hb, hciphertext⟩ :=
    (encryptBytesV8Core_eq_ok_iff key.keyValid _ _ _ _ _).mp block.made
  obtain ⟨hreach, hlt, hmax⟩ := blockSize_spec hb
  refine ⟨b, hreach, hlt, ?_, hciphertext, ?_⟩
  · simp only [padMaxExp, maxPlaintextCodepoints] at hmax ⊢
    omega
  · have htag := FixedBytes.length_toList (H (key.blockSubkey H).toList (blockTagInput H key.primes
      (key.blockSubkey H).toList block.aad.bytes block.message b))
    rw [tagInput, hciphertext, sealBlock, List.length_append, htag, tagSize, Nat.add_sub_cancel,
      List.take_left, List.take_left' (FixedBytes.length_toList _),
      List.drop_left' (FixedBytes.length_toList _)]
    rfl

end KeyBlock

namespace KeyStream

/-- The run of the stream encryptor behind this call. -/
def run (s : KeyStream H key) : HonestStream H key.primes (key.streamSubkey H) where
  plaintext := s.message
  nonce := s.nonce
  aad := s.aad
  f := s.frameCodepoints
  stream := s.stream
  frame_ok := by
    obtain ⟨⟨⟩, hframe, -⟩ := bind_eq_ok.mp s.made
    exact hframe
  made := by
    obtain ⟨⟨⟩, -, hmade⟩ := bind_eq_ok.mp s.made
    exact hmade

end KeyStream

/-- What was sealed with a key. -/
inductive Sealed (H : Hmac) (key : NapqesKey) where
  | block (block : KeyBlock H key)
  | stream (stream : KeyStream H key)

namespace Sealed

def format : Sealed H key → KeyFormat
  | block _ => .block
  | stream _ => .stream

def bytes : Sealed H key → List UInt8
  | block b => b.ciphertext
  | stream s => s.stream

def aad : Sealed H key → Slice
  | block b => b.aad
  | stream s => s.aad

def message : Sealed H key → Str
  | block b => b.message
  | stream s => s.message

/-- The streams draw their nonces; the nonce of a block is synthetic. -/
def stream? : Sealed H key → Option (KeyStream H key)
  | block _ => none
  | stream s => some s

/-- Keys and inputs of the tags computed while sealing. -/
def tagged : Sealed H key → List (List UInt8 × List UInt8)
  | block b => [((key.blockSubkey H).toList, b.tagInput)]
  | stream s => s.run.tagInputs.map fun input => ((key.streamSubkey H).toList, input)

end Sealed

/-- An ideal MAC for a log of keys and inputs: only the true tag of a logged pair verifies. -/
structure IdealKeyMac (H : Hmac) (log : List (List UInt8 × List UInt8)) (verify : TagCheck) :
    Prop where
  sound : ∀ k input tag, verify k input tag = true →
    (k, input) ∈ log ∧ tag = (H k input).toList

/-- The MAC check that consults the log before it compares. -/
def keyLogVerify (H : Hmac) (log : List (List UInt8 × List UInt8)) : TagCheck :=
  fun k input tag => decide ((k, input) ∈ log) && ctEqBytes tag (H k input)

theorem idealKeyMac_keyLogVerify (log : List (List UInt8 × List UInt8)) :
    IdealKeyMac H log (keyLogVerify H log) where
  sound k input tag h := by simpa [keyLogVerify, ctEqBytes] using h

/-- The ideal MAC refuses nothing that was sealed: its decoder returns its message. -/
theorem Sealed.decrypt_keyLogVerify {sealed : List (Sealed H key)} {a : Sealed H key}
    (ha : a ∈ sealed) :
    a.format.decrypt H (keyLogVerify H (sealed.flatMap Sealed.tagged)) key a.bytes a.aad.bytes =
      .ok a.message := by
  have hverify : ∀ entry ∈ a.tagged, keyLogVerify H (sealed.flatMap Sealed.tagged) entry.1
      entry.2 (H entry.1 entry.2).toList = true := by
    intro entry hentry
    have hlog : (entry.1, entry.2) ∈ sealed.flatMap Sealed.tagged :=
      List.mem_flatMap.mpr ⟨a, ha, hentry⟩
    simp [keyLogVerify, ctEqBytes, hlog]
  cases a with
  | block b =>
      obtain ⟨size, hreach, hlt, hmax, hciphertext, hinput⟩ := b.sealed
      refine (decryptBytesV8Core_eq_ok_iff key.keyValid _ key.sk _ _).mpr ?_
      rw [show (Sealed.block b).bytes = b.ciphertext from rfl, hciphertext]
      refine blockOpensTo_sealBlock ?_ key.keyValid hreach hlt hmax
      have hself := hverify _ (List.mem_singleton_self _)
      dsimp only at hself
      rw [hinput] at hself
      exact hself
  | stream s =>
      obtain ⟨hstream, hcount, -⟩ := s.run.stream_eq key.keyValid
      rw [HonestStream.frames, length_sealFrames] at hcount
      refine (decryptStreamAeV8Inner_eq_ok_iff key.keyValid _ _).mpr ?_
      rw [show (Sealed.stream s).bytes = _ from hstream]
      refine streamOpensTo_sealStream key.keyValid s.run.frame_range ?_
        s.message.isScalar_of_mem_codepoints hcount
      intro input hin
      exact hverify _ (List.mem_map.mpr ⟨input, hin, rfl⟩)

/-! ## Domains -/

/-- The inputs of the stream tags start with a domain byte of their own. -/
theorem domain_of_mem_tagInputs {primes : List Nat} {skFmt : FixedBytes 32}
    {run : HonestStream H primes skFmt} {input : List UInt8} (h : input ∈ run.tagInputs) :
    input.head? = some 0x0C ∨ input.head? = some 0x0D := by
  rw [HonestStream.tagInputs, streamTagInputs, List.mem_append] at h
  rcases h with h | h
  · obtain ⟨k, fr, -, rfl⟩ := exists_of_mem_frameTagInputs h
    exact Or.inl rfl
  · rw [List.mem_singleton.mp h]
    exact Or.inr rfl

/-- A block tag input that was logged belongs to a block. -/
theorem block_of_tagged {sealed : List (Sealed H key)} {k aad nonce body : List UInt8}
    (h : (k, authTagInput aad nonce body) ∈ sealed.flatMap Sealed.tagged) :
    ∃ b : KeyBlock H key, .block b ∈ sealed ∧ authTagInput aad nonce body = b.tagInput := by
  obtain ⟨a, ha, hin⟩ := List.mem_flatMap.mp h
  cases a with
  | block b => exact ⟨b, ha, (Prod.mk.inj (List.mem_singleton.mp hin)).2⟩
  | stream s =>
      obtain ⟨input, hinput, heq⟩ := List.mem_map.mp hin
      obtain rfl := (Prod.mk.inj heq).2
      rcases domain_of_mem_tagInputs hinput with hdomain | hdomain
      · exact absurd (Option.some.inj hdomain) (by decide)
      · exact absurd (Option.some.inj hdomain) (by decide)

/-- A logged input with another domain byte than a block's belongs to a stream. -/
theorem stream_of_tagged {sealed : List (Sealed H key)} {k input : List UInt8}
    (hdomain : input.head? ≠ some 0x03) (h : (k, input) ∈ sealed.flatMap Sealed.tagged) :
    ∃ s : KeyStream H key, .stream s ∈ sealed ∧ input ∈ s.run.tagInputs := by
  obtain ⟨a, ha, hin⟩ := List.mem_flatMap.mp h
  cases a with
  | block b =>
      obtain rfl := (Prod.mk.inj (List.mem_singleton.mp hin)).2
      exact absurd rfl hdomain
  | stream s =>
      obtain ⟨input', hinput, heq⟩ := List.mem_map.mp hin
      obtain rfl := (Prod.mk.inj heq).2
      exact ⟨s, ha, hinput⟩

/-- The nonce of a stream says which one it is. -/
theorem stream_of_nonce {sealed : List (Sealed H key)}
    (hnonces : ((sealed.filterMap Sealed.stream?).map KeyStream.nonce).Nodup)
    {s t : KeyStream H key} (hs : .stream s ∈ sealed) (ht : .stream t ∈ sealed)
    (h : s.nonce = t.nonce) : s = t :=
  List.inj_on_of_nodup_map hnonces (List.mem_filterMap.mpr ⟨_, hs, rfl⟩)
    (List.mem_filterMap.mpr ⟨_, ht, rfl⟩) h

/-! ## The decoders -/

section
variable {sealed : List (Sealed H key)}
  (hmac : IdealKeyMac H (sealed.flatMap Sealed.tagged) verify)
include hmac

/-- The block decoder accepts blocks. -/
theorem block_of_decryptBytesV8Key {bytes : List UInt8} {aad : Slice} {s : Str}
    (h : decryptBytesV8Key H verify bytes key aad.bytes = .ok s) :
    ∃ b : KeyBlock H key, .block b ∈ sealed ∧ b.aad = aad ∧ b.message = s ∧
      b.ciphertext = bytes := by
  have hopens := (decryptBytesV8Core_eq_ok_iff key.keyValid bytes key.sk aad.bytes s).mp h
  obtain ⟨nonce, body, tag, size, cps, hopen⟩ := id hopens
  obtain ⟨hlog, htag⟩ := hmac.sound _ _ tag hopen.tag_ok
  obtain ⟨b, hb, hinput⟩ := block_of_tagged hlog
  obtain ⟨size', hreach, hlt, hmax, hciphertext, hsealed⟩ := b.sealed
  -- The tag input determines associated data, nonce and body, so the bytes are the sealed ones.
  obtain ⟨haad, hnonce, hbody⟩ := authTagInput_inj hopen.length_nonce
    (FixedBytes.length_toList _) aad.length_lt b.aad.length_lt (hinput.trans hsealed)
  obtain rfl : b.aad = aad := Slice.ext haad.symm
  have hbytes : b.ciphertext = bytes := by
    rw [hopen.split, htag, hinput.trans hsealed, hnonce, hbody]
    exact hciphertext
  refine ⟨b, hb, rfl, ?_, hbytes⟩
  -- The tag that verified is the one of the sealed block, which opens to its message.
  have hself : BlockOpensTo H key.primes (key.blockSubkey H).toList verify b.aad.bytes bytes
      b.message.codepoints := by
    rw [← hbytes, hciphertext]
    refine blockOpensTo_sealBlock ?_ key.keyValid hreach hlt hmax
    have htagok := hopen.tag_ok
    rw [htag, hinput.trans hsealed] at htagok
    exact htagok
  have hmessage := (decryptBytesV8Core_eq_ok_iff key.keyValid bytes key.sk b.aad.bytes
    b.message).mpr hself
  exact Except.ok.inj (hmessage.symm.trans h)

/-- A stream tag that verifies was computed by a stream encryptor. -/
theorem stream_of_verify {input tag : List UInt8} (hdomain : input.head? ≠ some 0x03)
    (h : verify (key.streamSubkey H).toList input tag = true) :
    ∃ s : KeyStream H key, .stream s ∈ sealed ∧ input ∈ s.run.tagInputs ∧
      tag = (H (key.streamSubkey H).toList input).toList := by
  obtain ⟨hlog, htag⟩ := hmac.sound _ _ tag h
  obtain ⟨s, hs, hin⟩ := stream_of_tagged hdomain hlog
  exact ⟨s, hs, hin, htag⟩

/-- The frames of an accepted stream are those of the run with its nonce. -/
theorem framesBytes_of_run (hnonces : ((sealed.filterMap Sealed.stream?).map KeyStream.nonce).Nodup)
    {s : KeyStream H key} (hs : .stream s ∈ sealed) {frames : List Frame}
    (hlen : frames.length = s.run.frames.length)
    (hopen : FramesOpen H key.primes (key.streamSubkey H) s.aad.bytes s.frameCodepoints s.nonce
      verify 0 frames) :
    framesBytes frames = framesBytes s.run.frames := by
  have hrange : 1 ≤ s.frameCodepoints ∧ s.frameCodepoints ≤ 16384 := s.run.frame_range
  have hbytes : frames.map Frame.bytes = s.run.frames.map Frame.bytes := by
    apply List.ext_getElem?
    intro k
    rw [List.getElem?_map, List.getElem?_map]
    by_cases hk : k < frames.length
    · have hfr := hopen.getElem? (List.getElem?_eq_getElem hk)
      rw [Nat.zero_add] at hfr
      have hidx := hfr.idx_lt
      obtain ⟨s', hs', hin, htag⟩ := stream_of_verify hmac (by simp [chunkTagInput]) hfr.tag_ok
      obtain ⟨hnonce, fr, hget, hbody⟩ := chunk_of_run key.keyValid (by omega) (by omega) hin
      obtain rfl : s = s' := stream_of_nonce hnonces hs hs' hnonce
      have hsealed := tag_of_mem_sealFrames hget
      rw [Nat.zero_add, ← hbody] at hsealed
      replace hsealed := hsealed.trans htag.symm
      rw [List.getElem?_eq_getElem hk, hget, Option.map_some, Option.map_some, Frame.bytes,
        Frame.bytes, hbody, hsealed]
    · rw [List.getElem?_eq_none (by omega), List.getElem?_eq_none (by omega)]
  rw [framesBytes, framesBytes, List.flatMap_def, List.flatMap_def, hbytes]

/-- The stream decoder accepts streams. -/
theorem stream_of_decryptStreamAeV8Key
    (hnonces : ((sealed.filterMap Sealed.stream?).map KeyStream.nonce).Nodup) {bytes : List UInt8}
    {aad : Slice} {s : Str}
    (h : decryptStreamAeV8Key H verify bytes key aad.bytes = .ok s) :
    ∃ run : KeyStream H key, .stream run ∈ sealed ∧ run.aad = aad ∧ run.message = s ∧
      run.stream = bytes := by
  have hopens := (decryptStreamAeV8Inner_eq_ok_iff key.keyValid bytes s).mp h
  obtain ⟨f, nonce, frames, total, tag, hf, rest, hstream, htail⟩ := id hopens
  have hcount : frames.length < 2 ^ 32 := by
    simpa using htail.frames_open.lt (Nat.two_pow_pos 32)
  have hsentinel := htail.tag_ok
  have hsplit := htail.split
  rw [Nat.zero_add] at hsentinel hsplit
  -- The sentinel fixes the run, and the frames are the ones of that run.
  obtain ⟨run, hrun, hin, htag⟩ := stream_of_verify hmac (by simp [sentinelTagInput]) hsentinel
  obtain ⟨rfl, rfl, hlen, rfl, rfl⟩ :=
    sentinel_of_run key.keyValid (by omega) hcount htail.total_lt hin
  have hframes := framesBytes_of_run hmac hnonces hrun hlen htail.frames_open
  obtain ⟨hsealed, hcount, -⟩ := run.run.stream_eq key.keyValid
  have hbytes : run.stream = bytes := by
    rw [hstream, hsplit, hframes, htag, hlen]
    exact hsealed
  refine ⟨run, hrun, rfl, ?_, hbytes⟩
  -- Both messages are what the bytes open to when no tag is checked.
  rw [HonestStream.frames, length_sealFrames] at hcount
  have hself : StreamOpensTo H key.primes (key.streamSubkey H) (fun _ _ _ => true) run.aad.bytes
      bytes run.message.codepoints := by
    rw [← hbytes, show run.stream = _ from hsealed]
    exact streamOpensTo_sealStream key.keyValid run.run.frame_range (fun _ _ => rfl)
      run.message.isScalar_of_mem_codepoints hcount
  have hmessage := (decryptStreamAeV8Inner_eq_ok_iff key.keyValid bytes run.message).mpr hself
  have hopened := (decryptStreamAeV8Inner_eq_ok_iff key.keyValid bytes s).mpr
    (hopens.mono fun _ _ _ _ => rfl)
  exact Except.ok.inj (hmessage.symm.trans hopened)

end

/-- Integrity of a key: under an ideal MAC the decoder of each format accepts only what was sealed
with this key in that format, with its associated data, and returns its message. -/
theorem key_accepts_only_sealed (key : NapqesKey) (sealed : List (Sealed H key))
    (hnonces : ((sealed.filterMap Sealed.stream?).map KeyStream.nonce).Nodup) (verify : TagCheck)
    (hmac : IdealKeyMac H (sealed.flatMap Sealed.tagged) verify) (format : KeyFormat)
    (bytes : List UInt8) (aad : Slice) (s : Str)
    (haccept : format.decrypt H verify key bytes aad.bytes = .ok s) :
    ∃ a ∈ sealed, a.format = format ∧ a.aad = aad ∧ a.message = s ∧ a.bytes = bytes := by
  cases format with
  | block =>
      obtain ⟨b, hb, haad, hmessage, hbytes⟩ := block_of_decryptBytesV8Key hmac haccept
      exact ⟨.block b, hb, rfl, haad, hmessage, hbytes⟩
  | stream =>
      obtain ⟨run, hrun, haad, hmessage, hbytes⟩ :=
        stream_of_decryptStreamAeV8Key hmac hnonces haccept
      exact ⟨.stream run, hrun, rfl, haad, hmessage, hbytes⟩

/-- The shortest key with an all-zero `sk`. -/
def zeroKey : NapqesKey := ⟨[1000003], .ofList 32 [], validateKey_1000003⟩

theorem length_oneByteAad : ([7] : List UInt8).length < 2 ^ 64 := by
  decide

/-- A message of two characters, sealed as a block under this key. -/
def twoCharBlock : KeyBlock zeroHmac zeroKey where
  message := ['h', 'é']
  aad := ⟨[7], length_oneByteAad⟩
  padProfile := .bucket
  ciphertext := sealBlock zeroHmac [1000003] (zeroKey.blockSubkey zeroHmac).toList [7]
    ['h', 'é'] 16
  made := (encryptBytesV8Core_eq_ok_iff keyValid_1000003 _ _ _ _ _).mpr ⟨16, by rfl, rfl⟩

/-- Three characters, sealed as a stream in frames of two under this key. -/
def threeCharKeyStream : KeyStream zeroHmac zeroKey where
  message := ['a', 'b', 'c']
  aad := ⟨[7], length_oneByteAad⟩
  frameCodepoints := 2
  nonce := .ofList 16 [1]
  stream := sealStream zeroHmac [1000003] (zeroKey.streamSubkey zeroHmac) [7] 2 (.ofList 16 [1])
    (Str.codepoints ['a', 'b', 'c'])
  made := by
    refine bind_eq_ok.mpr ⟨⟨⟩, rfl, ?_⟩
    change encryptStreamAeV8Inner zeroHmac ['a', 'b', 'c'] [1000003] _ _ [7] 2 = _
    rw [encryptStreamAeV8Inner_eq keyValid_1000003 (by decide), if_pos]
    rw [length_pieces (by decide)]
    decide

/-- With a block and a stream sealed under one key, the block is accepted and is found. -/
theorem key_accepts_only_sealed_block :
    ∃ a ∈ [Sealed.stream threeCharKeyStream, Sealed.block twoCharBlock], a.format = .block ∧
      a.aad = twoCharBlock.aad ∧ a.message = ['h', 'é'] ∧ a.bytes = twoCharBlock.ciphertext :=
  key_accepts_only_sealed zeroKey _ (by decide) _ (idealKeyMac_keyLogVerify _) .block _ _ _
    (Sealed.decrypt_keyLogVerify (a := .block twoCharBlock) (by simp))

end Napqes.Rust
