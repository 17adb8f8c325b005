import Napqes.Format.Tokens
import Napqes.Misc.Pieces
import Napqes.Rust.Proofs.Domains
import Napqes.Rust.Stream

/-!
# The v8 stream format

A stream is `header || frames || sentinel`. `sealStream` is the stream the format gives to a
codepoint sequence under a nonce; `OpensStream` lists what makes a byte string open to a
codepoint sequence. Encryptors and decryptors of the ports are compared with these two.
-/

namespace Napqes

open Rust (streamV8Header chunkTagInput sentinelTagInput streamV8CountMask streamFiller
  deriveStreamV8SubNonce)

/-- One frame of a stream: masked body, tag, and the codepoints the body carries. -/
structure Frame where
  body : List UInt8
  tag : List UInt8
  cps : List Nat

/-- The bytes of a frame: `be4(|body|) || body || tag`. -/
def Frame.bytes (fr : Frame) : List UInt8 :=
  beBytes 4 fr.body.length ++ (fr.body ++ fr.tag)

/-- The bytes of consecutive frames. -/
def framesBytes (frs : List Frame) : List UInt8 := frs.flatMap Frame.bytes

/-- What the sentinel may announce after `c` chunks of `f` codepoints: the last chunk carries
at least one real codepoint. -/
def CountOk (f c total : Nat) : Prop :=
  (c = 0 ∧ total = 0) ∨ ((c - 1) * f < total ∧ total ≤ c * f)

instance (f c total : Nat) : Decidable (CountOk f c total) :=
  inferInstanceAs (Decidable (_ ∨ _))

section
variable (H : Hmac) (primes : List Nat) (skFmt : FixedBytes 32) (aad : List UInt8) (f : Nat)
  (nonce : FixedBytes 16)

/-! ## Sealing -/

/-- A piece of the plaintext, filled up to `f` codepoints. -/
def filled (idx : Nat) (piece : List Nat) : List Nat :=
  piece ++ streamFiller H skFmt nonce idx (f - piece.length)

/-- The frame of chunk `idx` that carries the codepoints `cps`. -/
def sealFrame (idx : Nat) (cps : List Nat) : Frame :=
  let subNonce := deriveStreamV8SubNonce H skFmt.toList nonce.toList idx
  let body := sealTokens H skFmt.toList subNonce.toList primes cps
  { body
    tag := (H skFmt.toList (chunkTagInput f nonce.toList idx aad body)).toList
    cps }

/-- The frames of consecutive pieces, the first with index `idx`. -/
def sealFrames : Nat → List (List Nat) → List Frame
  | _, [] => []
  | idx, p :: ps => sealFrame H primes skFmt aad f nonce idx (filled H skFmt f nonce idx p) ::
      sealFrames (idx + 1) ps

/-- The sentinel bytes for a count and a tag. -/
def sentinelBytes (chunkCount total : Nat) (tag : List UInt8) : List UInt8 :=
  beBytes 4 0 ++
    (beBytes 8 (total ^^^ streamV8CountMask H skFmt.toList f nonce.toList chunkCount) ++ tag)

/-- The stream of a codepoint sequence. -/
def sealStream (cps : List Nat) : List UInt8 :=
  let frames := sealFrames H primes skFmt aad f nonce 0 (pieces f cps)
  let tag := H skFmt.toList (sentinelTagInput f nonce.toList frames.length aad cps.length)
  streamV8Header f nonce.toList ++ (framesBytes frames ++
    sentinelBytes H skFmt f nonce frames.length cps.length tag.toList)

/-! ## Tagged inputs -/

/-- The tag inputs of consecutive frames, the first with index `idx`. -/
def frameTagInputs : Nat → List Frame → List (List UInt8)
  | _, [] => []
  | idx, fr :: frs => chunkTagInput f nonce.toList idx aad fr.body :: frameTagInputs (idx + 1) frs

/-- Everything an encryptor feeds to the two stream tags while it seals `cps`: one input for
each frame and one for the sentinel. -/
def streamTagInputs (cps : List Nat) : List (List UInt8) :=
  let frames := sealFrames H primes skFmt aad f nonce 0 (pieces f cps)
  frameTagInputs aad f nonce 0 frames ++
    [sentinelTagInput f nonce.toList frames.length aad cps.length]

/-! ## Opening -/

variable (verify : Rust.TagCheck)

/-- The frame of chunk `idx`: its tag verifies and its body carries its codepoints. -/
structure FrameOpen (idx : Nat) (fr : Frame) : Prop where
  length_body : fr.body.length = f * 160
  length_tag : fr.tag.length = 32
  tag_ok : verify skFmt.toList (chunkTagInput f nonce.toList idx aad fr.body) fr.tag = true
  idx_lt : idx + 1 < 2 ^ 32
  opened : openTokens H skFmt.toList
    (deriveStreamV8SubNonce H skFmt.toList nonce.toList idx).toList primes fr.body f = some fr.cps

/-- Consecutive frames, the first with index `idx`. -/
inductive FramesOpen : Nat → List Frame → Prop where
  | nil {idx : Nat} : FramesOpen idx []
  | cons {idx : Nat} {fr : Frame} {frs : List Frame} :
      FrameOpen H primes skFmt aad f nonce verify idx fr →
      FramesOpen (idx + 1) frs → FramesOpen idx (fr :: frs)

/-- The part of a stream that follows its first `idx` frames, which carried `chunks`. -/
structure StreamTail (rest : List UInt8) (idx : Nat) (chunks : List (List Nat))
    (frames : List Frame) (total : Nat) (tag : List UInt8) (out : List Nat) : Prop where
  split : rest = framesBytes frames ++
    sentinelBytes H skFmt f nonce (idx + frames.length) total tag
  frames_open : FramesOpen H primes skFmt aad f nonce verify idx frames
  total_lt : total < 2 ^ 64
  length_tag : tag.length = 32
  tag_ok : verify skFmt.toList
    (sentinelTagInput f nonce.toList (idx + frames.length) aad total) tag = true
  count_ok : CountOk f (idx + frames.length) total
  out_eq : out = ((chunks ++ frames.map Frame.cps).flatten).take total

/-- A whole stream that opens to `out`. -/
structure OpensStream (stream : List UInt8) (frames : List Frame) (total : Nat)
    (tag : List UInt8) (out : List Nat) : Prop where
  frame_range : 1 ≤ f ∧ f ≤ 16384
  tail : ∃ rest, stream = streamV8Header f nonce.toList ++ rest ∧
    StreamTail H primes skFmt aad f nonce verify rest 0 [] frames total tag out

end

/-- The byte string opens to `out` for some header fields and frames. -/
def StreamOpensTo (H : Hmac) (primes : List Nat) (skFmt : FixedBytes 32)
    (verify : Rust.TagCheck) (aad stream : List UInt8) (out : List Nat) : Prop :=
  ∃ f nonce frames total tag,
    OpensStream H primes skFmt aad f nonce verify stream frames total tag out

variable {H : Hmac} {primes : List Nat} {skFmt : FixedBytes 32} {aad : List UInt8} {f : Nat}
  {nonce : FixedBytes 16}

/-! ## Sealed streams -/

@[simp] theorem length_sealFrames (idx : Nat) (ps : List (List Nat)) :
    (sealFrames H primes skFmt aad f nonce idx ps).length = ps.length := by
  induction ps generalizing idx with
  | nil => rfl
  | cons p ps ih => simp [sealFrames, ih]

theorem length_filled {piece : List Nat} (h : piece.length ≤ f) (idx : Nat) :
    (filled H skFmt f nonce idx piece).length = f := by
  simp only [filled, streamFiller, List.length_append, List.length_map, List.length_range]
  omega

theorem filled_of_length {piece : List Nat} (h : piece.length = f) (idx : Nat) :
    filled H skFmt f nonce idx piece = piece := by
  rw [filled, h, Nat.sub_self]
  exact List.append_nil piece

theorem sealFrames_append (idx : Nat) (ps qs : List (List Nat)) :
    sealFrames H primes skFmt aad f nonce idx (ps ++ qs) =
      sealFrames H primes skFmt aad f nonce idx ps ++
        sealFrames H primes skFmt aad f nonce (idx + ps.length) qs := by
  induction ps generalizing idx with
  | nil => rfl
  | cons p ps ih =>
      rw [List.cons_append, sealFrames, sealFrames, ih, List.length_cons, Nat.add_right_comm,
        Nat.add_assoc]
      rfl

theorem isScalar_of_mem_filled {piece : List Nat} (h : ∀ c ∈ piece, IsScalar c) (idx : Nat) :
    ∀ c ∈ filled H skFmt f nonce idx piece, IsScalar c := by
  intro c hc
  simp only [filled, streamFiller, List.mem_append, List.mem_map] at hc
  rcases hc with hc | ⟨i, -, rfl⟩
  · exact h c hc
  · have := Rust.derivePadChar_lt H skFmt.toList
      (deriveStreamV8SubNonce H skFmt.toList nonce.toList idx).toList i
    exact ⟨Nat.le_trans (Nat.le_of_lt this) (by decide), fun hge => by
      have : 0xD800 < 127 := Nat.lt_of_le_of_lt hge.1 this
      omega⟩

theorem length_body_sealFrame (idx : Nat) (cps : List Nat) :
    (sealFrame H primes skFmt aad f nonce idx cps).body.length = cps.length * 160 :=
  length_sealTokens _ _ _ _ _

theorem length_framesBytes_sealFrames (idx : Nat) {ps : List (List Nat)}
    (h : ∀ p ∈ ps, p.length ≤ f) :
    (framesBytes (sealFrames H primes skFmt aad f nonce idx ps)).length =
      ps.length * (36 + 160 * f) := by
  induction ps generalizing idx with
  | nil => simp [sealFrames, framesBytes]
  | cons p ps ih =>
      have hrest := ih (idx + 1) fun q hq => h q (by simp [hq])
      have hbody := @length_body_sealFrame H primes skFmt aad f nonce idx
        (filled H skFmt f nonce idx p)
      rw [length_filled (h p (by simp))] at hbody
      have htag : (sealFrame H primes skFmt aad f nonce idx
          (filled H skFmt f nonce idx p)).tag.length = 32 := FixedBytes.length_toList _
      simp only [framesBytes] at hrest
      simp only [sealFrames, framesBytes, List.flatMap_cons, List.length_append, Frame.bytes,
        length_beBytes, hbody, htag, hrest, List.length_cons, Nat.add_mul]
      omega

theorem length_sentinelBytes {chunkCount total : Nat} {tag : List UInt8}
    (h : tag.length = 32) :
    (sentinelBytes H skFmt f nonce chunkCount total tag).length = 44 := by
  simp [sentinelBytes, h]

theorem length_sealStream (hf : 0 < f) (cps : List Nat) :
    (sealStream H primes skFmt aad f nonce cps).length =
      21 + (cps.length + f - 1) / f * (36 + 160 * f) + 44 := by
  have hframes := @length_framesBytes_sealFrames H primes skFmt aad f nonce 0 (pieces f cps)
    fun p hp => (mem_pieces hf hp).1
  simp only [sealStream, List.length_append, hframes, length_pieces hf,
    Rust.length_streamV8Header f nonce.length_toList,
    length_sentinelBytes (FixedBytes.length_toList _)]
  omega

/-- The chunks of a sealed stream are the plaintext, followed by filler. -/
theorem flatten_sealFrames (hf : 0 < f) (idx : Nat) (cps : List Nat) :
    ∃ filler, ((sealFrames H primes skFmt aad f nonce idx (pieces f cps)).map
      Frame.cps).flatten = cps ++ filler := by
  induction cps using pieces_induction hf generalizing idx with
  | hnil => exact ⟨[], by simp [sealFrames]⟩
  | hcons cps hne ih =>
      obtain ⟨filler, hrest⟩ := ih (idx + 1)
      rw [pieces_of_ne_nil hf hne]
      simp only [sealFrames, List.map_cons, List.flatten_cons, hrest, sealFrame, filled]
      by_cases hle : cps.length ≤ f
      · -- The only piece: all filler comes after it.
        rw [List.take_of_length_le hle, List.drop_of_length_le hle]
        exact ⟨_, by rw [List.append_assoc]⟩
      · -- A full piece has no filler of its own.
        have hfull : f - (cps.take f).length = 0 := by
          simp only [List.length_take]
          omega
        refine ⟨filler, ?_⟩
        rw [hfull]
        simp only [streamFiller, List.range_zero, List.map_nil, List.append_nil]
        rw [← List.append_assoc, List.take_append_drop]

/-- Frames sealed under a valid key open, when their own tags verify. -/
theorem framesOpen_sealFrames {verify : Rust.TagCheck} (hkey : KeyValid primes) (idx : Nat)
    {ps : List (List Nat)}
    (hverify : ∀ input ∈ frameTagInputs aad f nonce idx
      (sealFrames H primes skFmt aad f nonce idx ps),
      verify skFmt.toList input (H skFmt.toList input).toList = true)
    (hlen : ∀ p ∈ ps, p.length ≤ f) (hps : ∀ p ∈ ps, ∀ c ∈ p, IsScalar c)
    (hidx : idx + ps.length < 2 ^ 32) :
    FramesOpen H primes skFmt aad f nonce verify idx
      (sealFrames H primes skFmt aad f nonce idx ps) := by
  induction ps generalizing idx with
  | nil => exact .nil
  | cons p ps ih =>
      have hfill : (filled H skFmt f nonce idx p).length = f := length_filled (hlen p (by simp)) idx
      have hscalar := @isScalar_of_mem_filled H skFmt f nonce p (hps p (by simp)) idx
      simp only [List.length_cons] at hidx
      refine .cons ?_ (ih (idx + 1) (fun input hin => hverify input (List.mem_cons_of_mem _ hin))
        (fun q hq => hlen q (by simp [hq])) (fun q hq => hps q (by simp [hq])) (by omega))
      exact
        { length_body := by rw [length_body_sealFrame, hfill]
          length_tag := FixedBytes.length_toList _
          tag_ok := hverify _ (List.mem_cons_self ..)
          idx_lt := by omega
          opened := by
            have := openTokens_sealTokens H skFmt.toList
              (deriveStreamV8SubNonce H skFmt.toList nonce.toList idx).toList hkey hscalar
            rwa [hfill] at this }

/-- The plaintext length is a count the sentinel may announce. -/
theorem countOk_length (hf : 0 < f) (cps : List Nat) :
    CountOk f (pieces f cps).length cps.length := by
  obtain ⟨hlow, hhigh⟩ := length_pieces_bounds hf cps
  by_cases hnil : cps = []
  · exact Or.inl (by simp [hnil])
  · have := List.length_pos_iff.mpr hnil
    exact Or.inr ⟨by omega, hhigh⟩

/-- A sealed stream opens to its plaintext, when its own tags verify. -/
theorem streamOpensTo_sealStream {verify : Rust.TagCheck} (hkey : KeyValid primes)
    (hf : 1 ≤ f ∧ f ≤ 16384) {cps : List Nat}
    (hverify : ∀ input ∈ streamTagInputs H primes skFmt aad f nonce cps,
      verify skFmt.toList input (H skFmt.toList input).toList = true)
    (hcps : ∀ c ∈ cps, IsScalar c) (hcount : (pieces f cps).length < 2 ^ 32) :
    StreamOpensTo H primes skFmt verify aad (sealStream H primes skFmt aad f nonce cps) cps := by
  obtain ⟨filler, hflat⟩ := @flatten_sealFrames H primes skFmt aad f nonce hf.1 0 cps
  have hbound := length_pieces_bounds hf.1 cps
  have hmul : (pieces f cps).length * f < 2 ^ 32 * 16384 :=
    Nat.mul_lt_mul_of_lt_of_le hcount hf.2 (by decide)
  let frames := sealFrames H primes skFmt aad f nonce 0 (pieces f cps)
  have hframes : frames.length = (pieces f cps).length := length_sealFrames 0 _
  refine ⟨f, nonce, frames, cps.length,
    (H skFmt.toList (sentinelTagInput f nonce.toList frames.length aad cps.length)).toList, hf,
    _, rfl, ?_⟩
  exact
    { split := by rw [Nat.zero_add]
      frames_open := framesOpen_sealFrames hkey 0
        (fun input hin => hverify input (List.mem_append_left _ hin))
        (fun p hp => (mem_pieces hf.1 hp).1)
        (fun p hp c hc => hcps c ((mem_pieces hf.1 hp).2 c hc)) (by omega)
      total_lt := by omega
      length_tag := FixedBytes.length_toList _
      tag_ok := by
        rw [Nat.zero_add]
        exact hverify _ (List.mem_append_right _ (List.mem_singleton.mpr rfl))
      count_ok := by
        rw [Nat.zero_add, hframes]
        exact countOk_length hf.1 cps
      out_eq := by
        rw [List.nil_append, hflat, List.take_left' rfl] }

/-! ## Frames of an open stream -/

variable {verify : Rust.TagCheck}

/-- The chunk index stays below `2^32`. -/
theorem FramesOpen.lt {idx : Nat} {frs : List Frame}
    (h : FramesOpen H primes skFmt aad f nonce verify idx frs) (hidx : idx < 2 ^ 32) :
    idx + frs.length < 2 ^ 32 := by
  induction h with
  | nil => exact hidx
  | cons hfr _ ih =>
      have := ih hfr.idx_lt
      simp only [List.length_cons]
      omega

/-- A chunk carries `f` codepoints. -/
theorem FrameOpen.length_cps {idx : Nat} {fr : Frame}
    (h : FrameOpen H primes skFmt aad f nonce verify idx fr) : fr.cps.length = f :=
  Schedule.length_of_decode _ _ _ h.opened

/-- What follows the frames read so far begins with one more frame, or is the sentinel. -/
theorem streamTail_cons_iff {rest : List UInt8} {idx : Nat} {chunks : List (List Nat)}
    {fr : Frame} {frs : List Frame} {total : Nat} {tag : List UInt8} {out : List Nat} :
    StreamTail H primes skFmt aad f nonce verify rest idx chunks (fr :: frs) total tag out ↔
      ∃ rest', rest = fr.bytes ++ rest' ∧ FrameOpen H primes skFmt aad f nonce verify idx fr ∧
        StreamTail H primes skFmt aad f nonce verify rest' (idx + 1) (chunks ++ [fr.cps]) frs
          total tag out := by
  have hidx : idx + (fr :: frs).length = idx + 1 + frs.length := by
    simp only [List.length_cons]
    omega
  constructor
  · intro h
    have hsplit := h.split
    have htag := h.tag_ok
    have hcount := h.count_ok
    rw [hidx] at hsplit htag hcount
    cases h.frames_open with
    | cons hfr hfrs =>
        rw [framesBytes, List.flatMap_cons, List.append_assoc] at hsplit
        refine ⟨_, hsplit, hfr, ?_⟩
        exact
          { split := rfl
            frames_open := hfrs
            total_lt := h.total_lt
            length_tag := h.length_tag
            tag_ok := htag
            count_ok := hcount
            out_eq := by rw [h.out_eq]; simp }
  · rintro ⟨rest', rfl, hfr, h⟩
    exact
      { split := by
          rw [hidx, h.split, framesBytes, framesBytes, List.flatMap_cons, List.append_assoc]
        frames_open := .cons hfr h.frames_open
        total_lt := h.total_lt
        length_tag := h.length_tag
        tag_ok := by rw [hidx]; exact h.tag_ok
        count_ok := by rw [hidx]; exact h.count_ok
        out_eq := by rw [h.out_eq]; simp }

/-! ## Chunks read so far

A decryptor that has read `chunks` has handed out all of them but the last. -/

theorem length_flatten_of_forall {chunks : List (List Nat)} (h : ∀ p ∈ chunks, p.length = f) :
    chunks.flatten.length = chunks.length * f := by
  induction chunks with
  | nil => simp
  | cons p chunks ih =>
      rw [List.flatten_cons, List.length_append, h p (by simp), ih fun q hq => h q (by simp [hq]),
        List.length_cons, Nat.add_mul]
      omega

/-- The two loop variables after one more chunk. -/
theorem chunks_concat (chunks : List (List Nat)) (cps : List Nat) :
    chunks.dropLast.flatten ++ chunks.getLast?.getD [] = (chunks ++ [cps]).dropLast.flatten ∧
      some cps = (chunks ++ [cps]).getLast? := by
  rcases List.eq_nil_or_concat chunks with rfl | ⟨init, last, rfl⟩
  · simp
  · simp

/-- What a decryptor checks at the sentinel is `CountOk`. -/
theorem countOk_iff_consistent {chunks : List (List Nat)} (h : ∀ p ∈ chunks, p.length = f)
    (total : Nat) :
    CountOk f chunks.length total ↔
      match chunks.getLast? with
      | none => total = chunks.dropLast.flatten.length
      | some cps => chunks.dropLast.flatten.length < total ∧
          total ≤ chunks.dropLast.flatten.length + cps.length := by
  rcases List.eq_nil_or_concat chunks with rfl | ⟨init, last, rfl⟩
  · simp [CountOk]
  · have hinit : init.flatten.length = init.length * f :=
      length_flatten_of_forall fun p hp => h p (by simp [hp])
    have hlast : last.length = f := h last (by simp)
    simp [CountOk, hinit, hlast, Nat.add_mul]

/-- The real codepoints of the chunk held back complete those handed out. -/
theorem flatten_append_take_of_countOk {chunks : List (List Nat)}
    (h : ∀ p ∈ chunks, p.length = f) {total : Nat} (hcount : CountOk f chunks.length total) :
    chunks.dropLast.flatten ++
      (chunks.getLast?.getD []).take (total - chunks.dropLast.flatten.length) =
        chunks.flatten.take total := by
  rcases List.eq_nil_or_concat chunks with rfl | ⟨init, last, rfl⟩
  · simp
  · have hcons := (countOk_iff_consistent h total).mp hcount
    simp only [List.concat_eq_append, List.getLast?_concat, List.dropLast_concat] at hcons
    simp [List.take_append, List.take_of_length_le (Nat.le_of_lt hcons.1)]

/-! ## Weaker checks -/

/-- What opens under a tag check opens under a weaker one. -/
theorem FrameOpen.mono {verify' : Rust.TagCheck}
    (hle : ∀ key input tag, verify key input tag = true → verify' key input tag = true) {idx : Nat}
    {fr : Frame} (h : FrameOpen H primes skFmt aad f nonce verify idx fr) :
    FrameOpen H primes skFmt aad f nonce verify' idx fr :=
  { h with tag_ok := hle _ _ _ h.tag_ok }

theorem FramesOpen.mono {verify' : Rust.TagCheck}
    (hle : ∀ key input tag, verify key input tag = true → verify' key input tag = true) {idx : Nat}
    {frs : List Frame} (h : FramesOpen H primes skFmt aad f nonce verify idx frs) :
    FramesOpen H primes skFmt aad f nonce verify' idx frs := by
  induction h with
  | nil => exact .nil
  | cons hfr _ ih => exact .cons (hfr.mono hle) ih

theorem StreamOpensTo.mono {verify' : Rust.TagCheck}
    (hle : ∀ key input tag, verify key input tag = true → verify' key input tag = true)
    {stream : List UInt8} {out : List Nat}
    (h : StreamOpensTo H primes skFmt verify aad stream out) :
    StreamOpensTo H primes skFmt verify' aad stream out := by
  obtain ⟨f, nonce, frames, total, tag, hf, rest, hstream, htail⟩ := h
  exact ⟨f, nonce, frames, total, tag, hf, rest, hstream,
    { htail with
      frames_open := htail.frames_open.mono hle
      tag_ok := hle _ _ _ htail.tag_ok }⟩

/-! ## Frames by index -/

theorem FramesOpen.getElem? {idx k : Nat} {frs : List Frame} {fr : Frame}
    (h : FramesOpen H primes skFmt aad f nonce verify idx frs) (hk : frs[k]? = some fr) :
    FrameOpen H primes skFmt aad f nonce verify (idx + k) fr := by
  induction h generalizing k with
  | nil => simp at hk
  | cons hfr _ ih =>
      cases k with
      | zero =>
          rw [List.getElem?_cons_zero, Option.some.injEq] at hk
          rw [← hk]
          exact hfr
      | succ k =>
          rw [List.getElem?_cons_succ] at hk
          have := ih hk
          rwa [Nat.add_assoc, Nat.add_comm 1 k] at this

theorem exists_of_mem_frameTagInputs {idx : Nat} {frs : List Frame} {input : List UInt8}
    (h : input ∈ frameTagInputs aad f nonce idx frs) :
    ∃ k fr, frs[k]? = some fr ∧ input = chunkTagInput f nonce.toList (idx + k) aad fr.body := by
  induction frs generalizing idx with
  | nil => simp [frameTagInputs] at h
  | cons fr frs ih =>
      rw [frameTagInputs, List.mem_cons] at h
      rcases h with rfl | h
      · exact ⟨0, fr, rfl, rfl⟩
      · obtain ⟨k, fr', hk, rfl⟩ := ih h
        exact ⟨k + 1, fr', by simpa using hk, by rw [Nat.add_assoc, Nat.add_comm 1 k]⟩

/-- A sealed frame carries the tag of its own input. -/
theorem tag_of_mem_sealFrames {idx k : Nat} {ps : List (List Nat)} {fr : Frame}
    (h : (sealFrames H primes skFmt aad f nonce idx ps)[k]? = some fr) :
    fr.tag = (H skFmt.toList (chunkTagInput f nonce.toList (idx + k) aad fr.body)).toList := by
  induction ps generalizing idx k with
  | nil => simp [sealFrames] at h
  | cons p ps ih =>
      cases k with
      | zero =>
          rw [sealFrames, List.getElem?_cons_zero, Option.some.injEq] at h
          rw [← h]
          rfl
      | succ k =>
          rw [sealFrames, List.getElem?_cons_succ] at h
          have := ih h
          rwa [Nat.add_assoc, Nat.add_comm 1 k] at this

/-! ## Reading frames of known width -/

section
variable (H : Hmac) (primes : List Nat) (skFmt : FixedBytes 32) (aad : List UInt8) (f : Nat)
  (nonce : FixedBytes 16) (verify : Rust.TagCheck)

/-- The codepoints of the frame that starts a byte string. -/
def openFrame (idx : Nat) (bs : List UInt8) : Option (List Nat) :=
  let body := (bs.drop 4).take (f * 160)
  let tag := (bs.drop (4 + f * 160)).take 32
  if beNat (bs.take 4) = f * 160 ∧
      verify skFmt.toList (chunkTagInput f nonce.toList idx aad body) tag = true then
    openTokens H skFmt.toList (deriveStreamV8SubNonce H skFmt.toList nonce.toList idx).toList
      primes body f
  else none

/-- The codepoints of the first `n` frames, the first of them with index `idx`. -/
def openFrames : Nat → Nat → List UInt8 → Option (List (List Nat))
  | 0, _, _ => some []
  | n + 1, idx, bs => do
      let cps ← openFrame H primes skFmt aad f nonce verify idx bs
      let rest ← openFrames n (idx + 1) (bs.drop (36 + f * 160))
      return cps :: rest

end

/-- A frame carries `f` codepoints. -/
theorem length_of_openFrame {idx : Nat} {bs : List UInt8} {cps : List Nat}
    (h : openFrame H primes skFmt aad f nonce verify idx bs = some cps) : cps.length = f := by
  simp only [openFrame] at h
  split at h
  case isTrue => exact Schedule.length_of_decode _ _ _ h
  case isFalse => cases h

theorem length_frame_bytes {idx : Nat} {fr : Frame}
    (h : FrameOpen H primes skFmt aad f nonce verify idx fr) :
    fr.bytes.length = 36 + f * 160 := by
  simp only [Frame.bytes, List.length_append, length_beBytes, h.length_body, h.length_tag]
  omega

theorem length_framesBytes {idx : Nat} {frs : List Frame}
    (h : FramesOpen H primes skFmt aad f nonce verify idx frs) :
    (framesBytes frs).length = frs.length * (36 + f * 160) := by
  induction h with
  | nil => simp [framesBytes]
  | cons hfr _ ih =>
      rw [framesBytes, List.flatMap_cons, List.length_append, length_frame_bytes hfr,
        ← framesBytes, ih, List.length_cons, Nat.succ_mul, Nat.add_comm]

/-- A string of at least one frame's length opens at its front exactly when it starts with an
open frame. -/
theorem openFrame_eq_some_iff (hf : f ≤ 16384) {idx : Nat} (hidx : idx + 1 < 2 ^ 32)
    {bs : List UInt8} (hlen : 36 + f * 160 ≤ bs.length) (cps : List Nat) :
    openFrame H primes skFmt aad f nonce verify idx bs = some cps ↔
      ∃ fr : Frame, fr.cps = cps ∧ FrameOpen H primes skFmt aad f nonce verify idx fr ∧
        bs = fr.bytes ++ bs.drop (36 + f * 160) := by
  have hfour : (bs.take 4).length = 4 := by
    rw [List.length_take]
    omega
  constructor
  · intro h
    simp only [openFrame] at h
    split at h
    case isFalse => cases h
    case isTrue hif =>
      have hbody : ((bs.drop 4).take (f * 160)).length = f * 160 := by
        simp only [List.length_take, List.length_drop]
        omega
      refine ⟨⟨(bs.drop 4).take (f * 160), (bs.drop (4 + f * 160)).take 32, cps⟩, rfl, ?_, ?_⟩
      · exact
          { length_body := hbody
            length_tag := by
              simp only [List.length_take, List.length_drop]
              omega
            tag_ok := hif.2
            idx_lt := hidx
            opened := h }
      · have hfield : beBytes 4 (f * 160) = bs.take 4 := by
          rw [← hif.1]
          exact beBytes_beNat_of_length hfour
        simp only [Frame.bytes, hbody, hfield]
        rw [show 36 + f * 160 = 4 + (f * 160 + 32) by omega, ← List.drop_drop, ← List.drop_drop,
          ← List.drop_drop, List.append_assoc, List.append_assoc, List.take_append_drop,
          List.take_append_drop, List.take_append_drop]
  · rintro ⟨fr, rfl, hfr, hbs⟩
    have hfield : beNat (beBytes 4 fr.body.length) = f * 160 := by
      rw [beNat_beBytes_of_lt (by rw [hfr.length_body]; omega), hfr.length_body]
    generalize bs.drop (36 + f * 160) = rest at hbs
    subst hbs
    simp only [openFrame, Frame.bytes, List.append_assoc]
    rw [List.take_left' (length_beBytes 4 _), ← List.drop_drop,
      List.drop_left' (length_beBytes 4 _), List.take_left' hfr.length_body,
      List.drop_left' hfr.length_body, List.take_left' hfr.length_tag,
      if_pos ⟨hfield, hfr.tag_ok⟩]
    exact hfr.opened

/-- Reading `n` frames off a long enough string succeeds exactly on `n` open frames. -/
theorem openFrames_eq_some_iff (hf : f ≤ 16384) {n idx : Nat} (hidx : idx + n < 2 ^ 32)
    {bs : List UInt8} (hlen : n * (36 + f * 160) ≤ bs.length) (chunks : List (List Nat)) :
    openFrames H primes skFmt aad f nonce verify n idx bs = some chunks ↔
      ∃ frs, frs.map Frame.cps = chunks ∧ frs.length = n ∧
        FramesOpen H primes skFmt aad f nonce verify idx frs ∧
        bs = framesBytes frs ++ bs.drop (n * (36 + f * 160)) := by
  induction n generalizing idx bs chunks with
  | zero =>
      constructor
      · intro h
        simp only [openFrames, Option.some.injEq] at h
        exact ⟨[], h, rfl, .nil, by simp [framesBytes]⟩
      · rintro ⟨frs, rfl, hzero, -, -⟩
        rw [List.length_eq_zero_iff.mp hzero]
        rfl
  | succ n ih =>
      rw [Nat.succ_mul] at hlen
      have hfirst := @openFrame_eq_some_iff H primes skFmt aad f nonce verify hf idx (by omega)
        bs (by omega)
      have hrest := @ih (idx + 1) (by omega) (bs.drop (36 + f * 160))
        (by rw [List.length_drop]; omega)
      simp only [openFrames, Option.bind_eq_bind, Option.bind_eq_some_iff, Option.pure_def,
        Option.some.injEq, hfirst, hrest]
      have hdrop : (bs.drop (36 + f * 160)).drop (n * (36 + f * 160)) =
          bs.drop ((n + 1) * (36 + f * 160)) := by
        rw [List.drop_drop, Nat.succ_mul, Nat.add_comm]
      constructor
      · rintro ⟨_, ⟨fr, rfl, hfr, hbs⟩, _, ⟨frs, rfl, rfl, hfrs, hbs'⟩, rfl⟩
        refine ⟨fr :: frs, rfl, rfl, .cons hfr hfrs, ?_⟩
        rw [hdrop] at hbs'
        rw [framesBytes, List.flatMap_cons, ← framesBytes, List.append_assoc, ← hbs']
        exact hbs
      · rintro ⟨frs, rfl, hcount, hopen, hbs⟩
        cases hopen with
        | nil => cases hcount
        | @cons _ fr frs hfr hfrs =>
            have hfront : bs.drop (36 + f * 160) =
                framesBytes frs ++ bs.drop ((n + 1) * (36 + f * 160)) := by
              conv_lhs => rw [hbs]
              rw [framesBytes, List.flatMap_cons, List.append_assoc,
                List.drop_left' (length_frame_bytes hfr), ← framesBytes]
            refine ⟨_, ⟨fr, rfl, hfr, ?_⟩, _, ⟨frs, rfl, Nat.succ.inj hcount, hfrs, ?_⟩, rfl⟩
            · rw [hfront, ← List.append_assoc]
              rw [framesBytes, List.flatMap_cons, ← framesBytes] at hbs
              exact hbs
            · rw [hdrop]
              exact hfront

/-! ## The header -/

/-- A 21-byte header in front of the frames, cut into its fields. -/
theorem header_split {stream : List UInt8} (hlen : 21 ≤ stream.length)
    (hformat : stream.headD 0 = Rust.formatStreamAeV8) :
    stream = streamV8Header (beNat ((stream.drop 1).take 4))
      (FixedBytes.ofList 16 ((stream.drop 5).take 16)).toList ++ stream.drop 21 := by
  have hfield : ((stream.drop 1).take 4).length = 4 := by
    simp only [List.length_take, List.length_drop]
    omega
  have hnonce : ((stream.drop 5).take 16).length = 16 := by
    simp only [List.length_take, List.length_drop]
    omega
  cases stream with
  | nil => simp at hlen
  | cons b rest =>
      simp only [List.headD_cons] at hformat
      rw [streamV8Header, FixedBytes.toList_ofList hnonce, beBytes_beNat_of_length hfield, hformat]
      have hafter : (Rust.formatStreamAeV8 :: rest).drop 21 = ((rest.drop 4).drop 16) := by
        rw [List.drop_drop]
        rfl
      have hmid : (Rust.formatStreamAeV8 :: rest).drop 5 = rest.drop 4 := rfl
      rw [hafter, hmid, List.cons_append, List.append_assoc, List.take_append_drop]
      show _ = Rust.formatStreamAeV8 :: (rest.take 4 ++ rest.drop 4)
      rw [List.take_append_drop]

theorem take_drop_header_field (f : Nat) (nonce : FixedBytes 16) (rest : List UInt8) :
    ((streamV8Header f nonce.toList ++ rest).drop 1).take 4 = beBytes 4 f := by
  have hdrop : (streamV8Header f nonce.toList ++ rest).drop 1 =
      beBytes 4 f ++ (nonce.toList ++ rest) := by
    simp [streamV8Header]
  rw [hdrop, List.take_left' (length_beBytes 4 f)]

theorem take_drop_header_nonce (f : Nat) (nonce : FixedBytes 16) (rest : List UInt8) :
    ((streamV8Header f nonce.toList ++ rest).drop 5).take 16 = nonce.toList := by
  have hfront : streamV8Header f nonce.toList ++ rest =
      (Rust.formatStreamAeV8 :: beBytes 4 f) ++ (nonce.toList ++ rest) := by
    simp [streamV8Header]
  rw [hfront, List.drop_left' (by simp), List.take_left' nonce.length_toList]

/-! ## Layout from the length -/

/-- What a stream of `n` frames' length opens to: the sentinel and the frames are checked on the
byte ranges that the length gives. -/
theorem streamOpensTo_layout_iff (hf : 1 ≤ f ∧ f ≤ 16384) {n : Nat} (hn : n < 2 ^ 32)
    {body zero count tag : List UInt8} (hbody : body.length = n * (36 + f * 160))
    (hzero : zero.length = 4) (hcount : count.length = 8) (htag : tag.length = 32)
    (out : List Nat) :
    StreamOpensTo H primes skFmt verify aad
      (streamV8Header f nonce.toList ++ (body ++ (zero ++ (count ++ tag)))) out ↔
      let total := beNat count ^^^ streamV8CountMask H skFmt.toList f nonce.toList n
      zero = beBytes 4 0 ∧
        verify skFmt.toList (sentinelTagInput f nonce.toList n aad total) tag = true ∧
        CountOk f n total ∧
        ∃ chunks, openFrames H primes skFmt aad f nonce verify n 0
          (body ++ (zero ++ (count ++ tag))) = some chunks ∧ out = chunks.flatten.take total := by
  have hmask := Rust.u64FromBe8_lt
    (H skFmt.toList (Rust.countMaskInput f nonce.toList n)).toList
  have hopen := @openFrames_eq_some_iff H primes skFmt aad f nonce verify hf.2 n 0 (by omega)
    (body ++ (zero ++ (count ++ tag))) (by rw [List.length_append]; omega)
  simp only [hopen, List.drop_left' hbody]
  constructor
  · rintro ⟨f', nonce', frames, total, tag', hf', rest, hstream, htail⟩
    obtain ⟨rfl, rfl, rfl⟩ := Rust.header_append_inj (by omega) (by omega) hstream
    have hsplit := htail.split
    have hframes : frames.length = n := by
      have hlen := congrArg List.length hsplit
      simp only [List.length_append, length_framesBytes htail.frames_open,
        length_sentinelBytes htail.length_tag, hbody, hzero, hcount, htag] at hlen
      exact (Nat.eq_of_mul_eq_mul_right (by omega) (Nat.add_right_cancel hlen)).symm
    have htotal := htail.total_lt
    have htagOk := htail.tag_ok
    have hcountOk := htail.count_ok
    have hout := htail.out_eq
    simp only [Nat.zero_add, hframes, List.nil_append] at hsplit htagOk hcountOk hout
    obtain ⟨hbodyEq, hsent⟩ := List.append_inj hsplit (by
      rw [hbody, length_framesBytes htail.frames_open, hframes])
    obtain ⟨hzeroEq, hrest⟩ := append_inj_of_length hzero (length_beBytes 4 0) hsent
    obtain ⟨hcountEq, htagEq⟩ := append_inj_of_length hcount (length_beBytes 8 _) hrest
    have hfield : beNat count ^^^ streamV8CountMask H skFmt.toList f nonce.toList n = total := by
      rw [hcountEq, beNat_beBytes_of_lt (Nat.xor_lt_two_pow (n := 64) htotal hmask),
        Nat.xor_assoc, Nat.xor_self, Nat.xor_zero]
    rw [hfield, htagEq]
    exact ⟨hzeroEq, htagOk, hcountOk, _, ⟨frames, rfl, hframes, htail.frames_open,
      by rw [← hbodyEq]⟩, hout⟩
  · rintro ⟨hzeroEq, htagOk, hcountOk, _, ⟨frames, rfl, hframes, hfrs, hsplit⟩, rfl⟩
    have hbodyEq : body = framesBytes frames := List.append_cancel_right hsplit
    have hfield := Nat.lt_of_lt_of_eq (beNat_lt count) (by rw [hcount])
    refine ⟨f, nonce, frames, beNat count ^^^ streamV8CountMask H skFmt.toList f nonce.toList n,
      tag, hf, _, rfl, ?_⟩
    exact
      { split := by
          rw [Nat.zero_add, hframes, sentinelBytes, Nat.xor_assoc, Nat.xor_self, Nat.xor_zero,
            beBytes_beNat_of_length hcount, hbodyEq, hzeroEq]
        frames_open := hfrs
        total_lt := Nat.xor_lt_two_pow (n := 64) hfield hmask
        length_tag := htag
        tag_ok := by rw [Nat.zero_add, hframes]; exact htagOk
        count_ok := by rw [Nat.zero_add, hframes]; exact hcountOk
        out_eq := by rw [List.nil_append] }

/-- A byte string opens to at most one codepoint sequence. -/
theorem StreamOpensTo.unique {stream : List UInt8} {out out' : List Nat}
    (h : StreamOpensTo H primes skFmt verify aad stream out)
    (h' : StreamOpensTo H primes skFmt verify aad stream out') : out = out' := by
  obtain ⟨f, nonce, frames, total, tag, hf, rest, rfl, htail⟩ := h
  have hlt : frames.length < 2 ^ 32 := by simpa using htail.frames_open.lt (by decide)
  have hlayout := @streamOpensTo_layout_iff H primes skFmt aad f nonce verify hf _ hlt _ _ _ _
    (length_framesBytes htail.frames_open) (length_beBytes 4 0)
    (length_beBytes 8 (total ^^^ streamV8CountMask H skFmt.toList f nonce.toList
      (0 + frames.length))) htail.length_tag
  have hrest := htail.split
  rw [sentinelBytes] at hrest
  rw [hrest] at h'
  have h : StreamOpensTo H primes skFmt verify aad _ out :=
    ⟨f, nonce, frames, total, tag, hf, rest, rfl, htail⟩
  rw [hrest] at h
  obtain ⟨-, -, -, chunks, hchunks, rfl⟩ := (hlayout out).mp h
  obtain ⟨-, -, -, chunks', hchunks', rfl⟩ := (hlayout out').mp h'
  rw [hchunks, Option.some.injEq] at hchunks'
  rw [hchunks']

/-- No tail of the format is a proper prefix of another. -/
theorem StreamTail.eq_nil_of_append (hf : 1 ≤ f ∧ f ≤ 16384) {pre extra : List UInt8}
    {idx : Nat} {chunks chunks' : List (List Nat)} {frames frames' : List Frame}
    {total total' : Nat} {tag tag' : List UInt8} {out out' : List Nat}
    (h : StreamTail H primes skFmt aad f nonce verify pre idx chunks frames total tag out)
    (h' : StreamTail H primes skFmt aad f nonce verify (pre ++ extra) idx chunks' frames' total'
      tag' out') : extra = [] := by
  -- A sentinel starts with a zero length, a frame does not.
  have hclash : ∀ {a b : List UInt8}, beBytes 4 0 ++ a ≠ beBytes 4 (f * 160) ++ b := by
    intro a b heq
    have := (beBytes_append_inj (by omega) (by omega) heq).1
    omega
  induction frames generalizing pre idx chunks chunks' frames' with
  | nil =>
      have hsplit := h.split
      rw [framesBytes, List.flatMap_nil, List.nil_append] at hsplit
      cases frames' with
      | nil =>
          have hsplit' := h'.split
          rw [framesBytes, List.flatMap_nil, List.nil_append, hsplit] at hsplit'
          have hlen := congrArg List.length hsplit'
          rw [List.length_append, length_sentinelBytes h.length_tag,
            length_sentinelBytes h'.length_tag] at hlen
          exact List.length_eq_zero_iff.mp (by omega)
      | cons fr' frames' =>
          obtain ⟨rest', hrest', hfr', -⟩ := streamTail_cons_iff.mp h'
          rw [hsplit, sentinelBytes, Frame.bytes, hfr'.length_body, List.append_assoc,
            List.append_assoc] at hrest'
          exact absurd hrest' hclash
  | cons fr frames ih =>
      obtain ⟨rest, rfl, hfr, htail⟩ := streamTail_cons_iff.mp h
      cases frames' with
      | nil =>
          have hsplit' := h'.split
          rw [framesBytes, List.flatMap_nil, List.nil_append, sentinelBytes, Frame.bytes,
            hfr.length_body, List.append_assoc, List.append_assoc] at hsplit'
          exact absurd hsplit'.symm hclash
      | cons fr' frames' =>
          obtain ⟨rest', hrest', hfr', htail'⟩ := streamTail_cons_iff.mp h'
          rw [List.append_assoc] at hrest'
          obtain ⟨-, hrest⟩ := append_inj_of_length (length_frame_bytes hfr)
            (length_frame_bytes hfr') hrest'
          rw [← hrest] at htail'
          exact ih htail htail'

/-- No stream that opens is a proper prefix of another. -/
theorem StreamOpensTo.eq_nil_of_append {pre extra : List UInt8} {out out' : List Nat}
    (h : StreamOpensTo H primes skFmt verify aad pre out)
    (h' : StreamOpensTo H primes skFmt verify aad (pre ++ extra) out') : extra = [] := by
  obtain ⟨f, nonce, frames, total, tag, hf, rest, rfl, htail⟩ := h
  obtain ⟨f', nonce', frames', total', tag', hf', rest', hstream, htail'⟩ := h'
  rw [List.append_assoc] at hstream
  obtain ⟨rfl, rfl, rfl⟩ := Rust.header_append_inj (by omega) (by omega) hstream
  exact htail.eq_nil_of_append hf htail'

/-- A stream opens to scalar values. -/
theorem StreamOpensTo.isScalar {stream : List UInt8} {out : List Nat}
    (h : StreamOpensTo H primes skFmt verify aad stream out) : ∀ c ∈ out, IsScalar c := by
  obtain ⟨f, nonce, frames, total, tag, hf, rest, rfl, htail⟩ := h
  rw [htail.out_eq, List.nil_append]
  intro c hc
  obtain ⟨cps, hcps, hmem⟩ := List.mem_flatten.mp (List.mem_of_mem_take hc)
  obtain ⟨fr, hfr, rfl⟩ := List.mem_map.mp hcps
  obtain ⟨k, hk⟩ := List.getElem?_of_mem hfr
  exact isScalar_of_readTokens H skFmt.toList _ (htail.frames_open.getElem? hk).opened c hmem

end Napqes
