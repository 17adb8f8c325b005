import Napqes.Python.Proofs.StreamV8
import Napqes.Rust.Proofs.StreamIntegrity

/-!
# The v8 stream decryptors of Python and Rust

Cut into any chunks, a byte string is accepted by the Python decryptor when it starts with a
stream of the format; the Rust decryptor asks for exactly such a stream. The two agree except on
a stream with bytes behind its sentinel, which Python does not look at.
-/

namespace Napqes.Python

open Rust (TagCheck)

variable {H : Hmac} {verify : TagCheck} {primes : List Nat} {skFmt : FixedBytes 32}
  {aad : List UInt8} {f : Nat} {nonce : FixedBytes 16}

/-! ## From the loop to the format -/

/-- A sentinel that was accepted ends a tail of the format. -/
theorem SentinelReads.streamTail {chunks : List (List Nat)}
    (hchunks : ∀ p ∈ chunks, p.length = f) {bs : List UInt8} {total : Nat}
    (h : SentinelReads H verify skFmt aad f nonce chunks.length chunks.getLast?
      chunks.dropLast.flatten.length bs total) :
    StreamTail H primes skFmt aad f nonce verify (bs.take 44) chunks.length chunks [] total
      ((bs.drop 12).take 32) (chunks.flatten.take total) := by
  have hlen := h.le_length
  have hzero : bs.take 4 = beBytes 4 0 := by
    rw [← h.zero]
    exact (beBytes_beNat_of_length (by rw [List.length_take]; omega)).symm
  have height : ((bs.drop 4).take 8).length = 8 := by
    rw [List.length_take, List.length_drop]
    omega
  have hcount := Nat.lt_of_lt_of_eq (beNat_lt ((bs.drop 4).take 8)) (by rw [height])
  have hsplit : bs.take 44 = bs.take 4 ++ ((bs.drop 4).take 8 ++ (bs.drop 12).take 32) := by
    rw [show 44 = 4 + (8 + 32) from rfl, List.take_add, List.take_add, List.drop_drop]
  exact
    { split := by
        rw [framesBytes, List.flatMap_nil, List.nil_append, List.length_nil, Nat.add_zero,
          sentinelBytes, h.total_eq, Nat.xor_assoc, Nat.xor_self, Nat.xor_zero,
          beBytes_beNat_of_length height, hsplit, hzero]
      frames_open := .nil
      total_lt := by
        rw [h.total_eq]
        exact Nat.xor_lt_two_pow (n := 64) hcount (Rust.u64FromBe8_lt _)
      length_tag := by
        rw [List.length_take, List.length_drop]
        omega
      tag_ok := h.tag_ok
      count_ok := (countOk_iff_consistent hchunks total).mpr h.consistent
      out_eq := by rw [List.map_nil, List.append_nil] }

/-- A tail without frames is a sentinel that is accepted. -/
theorem sentinelReads_of_streamTail {chunks : List (List Nat)}
    (hchunks : ∀ p ∈ chunks, p.length = f) (hidx : chunks.length < 2 ^ 32)
    (haad : aad.length < 2 ^ 64) {pre extra : List UInt8} {total : Nat} {tag : List UInt8}
    {out : List Nat}
    (h : StreamTail H primes skFmt aad f nonce verify pre chunks.length chunks [] total tag
      out) :
    SentinelReads H verify skFmt aad f nonce chunks.length chunks.getLast?
      chunks.dropLast.flatten.length (pre ++ extra) total := by
  have hsplit := h.split
  rw [framesBytes, List.flatMap_nil, List.nil_append, List.length_nil, Nat.add_zero,
    sentinelBytes] at hsplit
  have hmask := Rust.u64FromBe8_lt
    (H skFmt.toList (Rust.countMaskInput f nonce.toList chunks.length)).toList
  have hfield : total ^^^ Rust.streamV8CountMask H skFmt.toList f nonce.toList chunks.length <
      256 ^ 8 := Nat.xor_lt_two_pow (n := 64) h.total_lt hmask
  have hlen := congrArg List.length hsplit
  simp only [List.length_append, length_beBytes, h.length_tag] at hlen
  rw [hsplit]
  simp only [List.append_assoc]
  exact
    { le_length := by simp only [List.length_append, length_beBytes, h.length_tag]; omega
      idx_lt := hidx
      aad_lt := haad
      zero := by rw [List.take_left' (length_beBytes 4 0)]; rfl
      total_eq := by
        rw [List.drop_left' (length_beBytes 4 0), List.take_left' (length_beBytes 8 _),
          beNat_beBytes_of_lt hfield, Nat.xor_assoc, Nat.xor_self, Nat.xor_zero]
      tag_ok := by
        rw [show 12 = 4 + 8 from rfl, ← List.drop_drop, List.drop_left' (length_beBytes 4 0),
          List.drop_left' (length_beBytes 8 _), List.take_left' h.length_tag]
        exact h.tag_ok
      consistent := (countOk_iff_consistent hchunks total).mp h.count_ok }

/-- A run of the loop that returns has read a tail of the format; what it yielded completes what
was handed out before. -/
theorem streamTail_of_loopAfter (hkey : KeyValid primes) (hf : 1 ≤ f ∧ f ≤ 16384)
    {chunks : List (List Nat)} (hchunks : ChunksRead f chunks) {r : Reader}
    (hok : (loopAfter H verify primes skFmt aad f nonce chunks r).outcome = .ok ⟨⟩) :
    ∃ pre extra frames total tag, r.bytes = pre ++ extra ∧
      chunks.length + frames.length < 2 ^ 32 ∧
      StreamTail H primes skFmt aad f nonce verify pre chunks.length chunks frames total tag
        (chunks.dropLast.flatten ++
          (loopAfter H verify primes skFmt aad f nonce chunks r).yielded) := by
  induction hn : r.bytes.length using Nat.strong_induction_on generalizing r chunks with
  | _ n ih =>
      rcases @loopAfter_round H verify primes skFmt aad f nonce hkey hf chunks hchunks r with
        ⟨cps, r', hframe, hr', hmore, hrun⟩ | ⟨total, hsent, hrun⟩ | ⟨-, -, e, hrun⟩
      · rw [hrun] at hok ⊢
        have hlen := hframe.le_length
        obtain ⟨pre, extra, frames, total, tag, hbytes, hcount, htail⟩ := ih r'.bytes.length
          (by rw [hr', List.length_drop]; omega) hmore hok rfl
        rw [List.length_append, List.length_singleton] at hcount htail
        obtain ⟨fr, rfl, hopen, hsplit⟩ := (openFrame_eq_some_iff hf.2 (by omega) hlen cps).mp
          hframe.opened
        refine ⟨fr.bytes ++ pre, extra, fr :: frames, total, tag, ?_, ?_, ?_⟩
        · rw [List.append_assoc, ← hbytes, hr']
          exact hsplit
        · rw [List.length_cons]
          omega
        · refine streamTail_cons_iff.mpr ⟨pre, rfl, hopen, ?_⟩
          rw [← List.append_assoc, (chunks_concat chunks fr.cps).1]
          exact htail
      · rw [hrun]
        refine ⟨r.bytes.take 44, r.bytes.drop 44, [], total, (r.bytes.drop 12).take 32,
          (List.take_append_drop 44 r.bytes).symm, hsent.idx_lt, ?_⟩
        have htail := @SentinelReads.streamTail H verify primes skFmt aad f nonce chunks
          hchunks.length _ _ hsent
        rw [flatten_append_take_of_countOk hchunks.length htail.count_ok]
        exact htail
      · rw [hrun] at hok
        cases hok

/-- On bytes that start with a tail of the format, the loop returns. -/
theorem loopAfter_of_streamTail (hkey : KeyValid primes) (hf : 1 ≤ f ∧ f ≤ 16384)
    (haad : aad.length < 2 ^ 64) {chunks : List (List Nat)} (hchunks : ChunksRead f chunks)
    (hidx : chunks.length < 2 ^ 32) {r : Reader} {pre extra : List UInt8}
    {frames : List Frame} {total : Nat} {tag : List UInt8} {out : List Nat}
    (hbytes : r.bytes = pre ++ extra)
    (h : StreamTail H primes skFmt aad f nonce verify pre chunks.length chunks frames total tag
      out) :
    (loopAfter H verify primes skFmt aad f nonce chunks r).outcome = .ok ⟨⟩ ∧
      chunks.dropLast.flatten ++ (loopAfter H verify primes skFmt aad f nonce chunks r).yielded =
        out := by
  induction frames generalizing r pre chunks with
  | nil =>
      have hsent := @sentinelReads_of_streamTail H verify primes skFmt aad f nonce chunks
        hchunks.length hidx haad pre extra total tag out h
      rw [← hbytes] at hsent
      rcases @loopAfter_round H verify primes skFmt aad f nonce hkey hf chunks hchunks r with
        ⟨cps, r', hframe, -⟩ | ⟨total', hsent', hrun⟩ | ⟨-, hno, -⟩
      · exact absurd hsent.zero (hframe.ne_zero hf.1)
      · obtain rfl : total' = total := hsent'.total_eq.trans hsent.total_eq.symm
        rw [hrun, flatten_append_take_of_countOk hchunks.length h.count_ok, h.out_eq]
        simp
      · exact absurd hsent (hno total)
  | cons fr frames ih =>
      obtain ⟨rest, rfl, hfr, htail⟩ := streamTail_cons_iff.mp h
      rw [List.append_assoc] at hbytes
      have hsize := length_frame_bytes hfr
      have hlen : 36 + f * 160 ≤ r.bytes.length := by
        rw [hbytes, List.length_append, hsize]
        exact Nat.le_add_right _ _
      have hdrop : r.bytes.drop (36 + f * 160) = rest ++ extra := by
        rw [hbytes, List.drop_left' hsize]
      have hopen := (openFrame_eq_some_iff hf.2 hfr.idx_lt hlen fr.cps).mpr
        ⟨fr, rfl, hfr, by rw [hdrop]; exact hbytes⟩
      have hframe : FrameReads H verify primes skFmt aad f nonce chunks.length r.bytes fr.cps :=
        ⟨hlen, hidx, haad, hopen⟩
      rcases @loopAfter_round H verify primes skFmt aad f nonce hkey hf chunks hchunks r with
        ⟨cps, r', hframe', hr', hmore, hrun⟩ | ⟨total', hsent, -⟩ | ⟨hno, -⟩
      · obtain rfl : cps = fr.cps := Option.some.inj (hframe'.opened.symm.trans hopen)
        have hnext : (chunks ++ [fr.cps]).length = chunks.length + 1 := by simp
        obtain ⟨hok, hout⟩ := ih hmore (by rw [hnext]; exact hfr.idx_lt) (hr'.trans hdrop)
          (by rw [hnext]; exact htail)
        rw [hrun]
        refine ⟨hok, ?_⟩
        rw [← List.append_assoc, (chunks_concat chunks fr.cps).1]
        exact hout
      · exact absurd hsent.zero (hframe.ne_zero hf.1)
      · exact absurd hframe (hno fr.cps)

/-- The decryptor returns on the byte strings that start with a stream of the format, and yields
what that stream opens to. -/
theorem decryptStreamAeV8_eq_ok_iff {mathSqrt : Nat → Nat}
    (hpy : validateKey mathSqrt primes = .ok ⟨⟩) (hkey : KeyValid primes) (sk : FixedBytes 32)
    (haad : aad.length < 2 ^ 64) (byteChunks : List (List UInt8)) (out : List Nat) :
    decryptStreamAeV8 H verify mathSqrt byteChunks primes sk.toList aad = ⟨out, .ok ⟨⟩⟩ ↔
      ∃ pre extra, byteChunks.flatten = pre ++ extra ∧
        StreamOpensTo H primes (Rust.deriveFormatSubkey H sk Rust.formatStreamAeV8) verify aad pre
          out := by
  rcases @decryptStreamAeV8_header H verify primes aad mathSqrt hpy sk byteChunks with
    ⟨f, nonce, r, hf, hbytes, hrun⟩ | ⟨hno, e, hrun⟩
  · rw [hrun]
    constructor
    · intro h
      obtain ⟨pre, extra, frames, total, tag, hsplit, -, htail⟩ :=
        streamTail_of_loopAfter hkey hf ChunksRead.nil (congrArg Gen.outcome h)
      rw [h] at htail
      refine ⟨Rust.streamV8Header f nonce.toList ++ pre, extra, ?_, f, nonce, frames, total, tag,
        hf, pre, rfl, htail⟩
      rw [hbytes, hsplit, List.append_assoc]
    · rintro ⟨pre, extra, hsplit, f', nonce', frames, total, tag, hf', rest, rfl, htail⟩
      rw [hbytes, List.append_assoc] at hsplit
      obtain ⟨rfl, rfl, hrest⟩ := Rust.header_append_inj (by omega) (by omega) hsplit
      obtain ⟨hok, hout⟩ := loopAfter_of_streamTail hkey hf haad ChunksRead.nil (by decide) hrest
        htail
      exact Gen.ext hout hok
  · rw [hrun]
    constructor
    · intro h
      cases congrArg Gen.outcome h
    · rintro ⟨pre, extra, hsplit, f, nonce, frames, total, tag, hf, rest, rfl, -⟩
      rw [List.append_assoc] at hsplit
      exact absurd hsplit (hno f nonce _ hf)

/-! ## Main result -/

/-- The two decryptors take the same decision with the same codepoints, however the input of the
Python decryptor is cut, exactly on the byte strings that are not a stream of the format with
more bytes behind it. -/
theorem decryptStreamAeV8_agree_iff (H : Hmac) (mathSqrt : Nat → Nat) (primes : List Nat)
    (hrust : Rust.validateKey primes = .ok ⟨⟩) (hpy : validateKey mathSqrt primes = .ok ⟨⟩)
    (sk : FixedBytes 32) (aad : Slice) (byteChunks : List (List UInt8)) :
    (((decryptStreamAeV8 H (Rust.hmacVerify H) mathSqrt byteChunks primes sk.toList
          aad.bytes).outcome = .ok ⟨⟩ ↔
        ∃ s, Rust.decryptStreamAeV8Inner H (Rust.hmacVerify H) byteChunks.flatten primes
          (Rust.deriveFormatSubkey H sk Rust.formatStreamAeV8) aad.bytes = .ok s) ∧
      ∀ s, Rust.decryptStreamAeV8Inner H (Rust.hmacVerify H) byteChunks.flatten primes
          (Rust.deriveFormatSubkey H sk Rust.formatStreamAeV8) aad.bytes = .ok s →
        (decryptStreamAeV8 H (Rust.hmacVerify H) mathSqrt byteChunks primes sk.toList
          aad.bytes).yielded = s.codepoints) ↔
      ¬ ∃ stream extra out, byteChunks.flatten = stream ++ extra ∧ extra ≠ [] ∧
        StreamOpensTo H primes (Rust.deriveFormatSubkey H sk Rust.formatStreamAeV8)
          (Rust.hmacVerify H) aad.bytes stream out := by
  have hkey := (Rust.validateKey_iff primes).mp hrust
  have hpyIff := @decryptStreamAeV8_eq_ok_iff H (Rust.hmacVerify H) primes aad.bytes mathSqrt hpy
    hkey sk aad.length_lt byteChunks
  have hrustIff := @Rust.decryptStreamAeV8Inner_eq_ok_iff H primes
    (Rust.deriveFormatSubkey H sk Rust.formatStreamAeV8) aad.bytes (Rust.hmacVerify H) hkey
    byteChunks.flatten
  generalize decryptStreamAeV8 H (Rust.hmacVerify H) mathSqrt byteChunks primes sk.toList
    aad.bytes = run at hpyIff
  constructor
  · rintro ⟨haccept, -⟩ ⟨stream, extra, out, hsplit, hextra, hopen⟩
    have hrun := (hpyIff out).mpr ⟨stream, extra, hsplit, hopen⟩
    obtain ⟨s, hs⟩ := haccept.mp (congrArg Gen.outcome hrun)
    have hwhole := (hrustIff s).mp hs
    rw [hsplit] at hwhole
    exact hextra (hopen.eq_nil_of_append hwhole)
  · intro hno
    -- Without bytes behind the stream both accept the streams of the format.
    have hsame : ∀ out, run = ⟨out, .ok ⟨⟩⟩ ↔ StreamOpensTo H primes
        (Rust.deriveFormatSubkey H sk Rust.formatStreamAeV8) (Rust.hmacVerify H) aad.bytes
        byteChunks.flatten out := by
      intro out
      rw [hpyIff]
      constructor
      · rintro ⟨stream, extra, hsplit, hopen⟩
        by_cases hextra : extra = []
        · rw [hsplit, hextra, List.append_nil]
          exact hopen
        · exact absurd ⟨stream, extra, out, hsplit, hextra, hopen⟩ hno
      · intro hopen
        exact ⟨byteChunks.flatten, [], (List.append_nil _).symm, hopen⟩
    refine ⟨⟨?_, ?_⟩, ?_⟩
    · intro hok
      have hopen := (hsame run.yielded).mp (Gen.ext rfl hok)
      obtain ⟨s, hs⟩ := exists_codepoints hopen.isScalar
      exact ⟨s, (hrustIff s).mpr (by rw [hs]; exact hopen)⟩
    · rintro ⟨s, hs⟩
      exact congrArg Gen.outcome ((hsame s.codepoints).mpr ((hrustIff s).mp hs))
    · intro s hs
      exact congrArg Gen.yielded ((hsame s.codepoints).mpr ((hrustIff s).mp hs))

/-- The stream of three characters in frames of two that the concrete cases use. -/
def abcStream : List UInt8 :=
  sealStream zeroHmac [1000003] (Rust.deriveFormatSubkey zeroHmac (.ofList 32 [])
    Rust.formatStreamAeV8) [7] 2 (.ofList 16 [1]) (Str.codepoints ['a', 'b', 'c'])

theorem streamOpensTo_abcStream :
    StreamOpensTo zeroHmac [1000003] (Rust.deriveFormatSubkey zeroHmac (.ofList 32 [])
      Rust.formatStreamAeV8) (Rust.hmacVerify zeroHmac) [7] abcStream
      (Str.codepoints ['a', 'b', 'c']) := by
  refine streamOpensTo_sealStream keyValid_1000003 (by decide)
    (fun input _ => Rust.hmacVerify_self _ _ input) (Str.isScalar_of_mem_codepoints _) ?_
  rw [length_pieces (by decide)]
  decide

/-- A stream that arrives behind an empty chunk and in two pieces. -/
theorem decryptStreamAeV8_agree_abcStream :
    ∃ s, Rust.decryptStreamAeV8Inner zeroHmac (Rust.hmacVerify zeroHmac) abcStream [1000003]
        (Rust.deriveFormatSubkey zeroHmac (.ofList 32 []) Rust.formatStreamAeV8) [7] = .ok s ∧
      (decryptStreamAeV8 zeroHmac (Rust.hmacVerify zeroHmac) Nat.sqrt
        [[], abcStream.take 30, abcStream.drop 30] [1000003] (FixedBytes.ofList 32 []).toList
        [7]).yielded = s.codepoints := by
  have hbytes : [[], abcStream.take 30, abcStream.drop 30].flatten = abcStream := by
    simp only [List.flatten_cons, List.flatten_nil, List.nil_append, List.append_nil]
    exact List.take_append_drop 30 abcStream
  have hagree := (decryptStreamAeV8_agree_iff zeroHmac Nat.sqrt [1000003]
    Rust.validateKey_1000003 validateKey_1000003 (.ofList 32 []) ⟨[7], by decide⟩
    [[], abcStream.take 30, abcStream.drop 30]).mpr (by
      rintro ⟨stream, extra, out, hsplit, hextra, hopen⟩
      have hwhole := streamOpensTo_abcStream
      rw [← hbytes, hsplit] at hwhole
      exact hextra (hopen.eq_nil_of_append hwhole))
  rw [hbytes] at hagree
  have haccept := (Rust.decryptStreamAeV8Inner_eq_ok_iff keyValid_1000003 abcStream
    ['a', 'b', 'c']).mpr streamOpensTo_abcStream
  exact ⟨['a', 'b', 'c'], haccept, hagree.2 _ haccept⟩

/-- With one byte behind the sentinel Python returns the three characters and Rust an error. -/
theorem decryptStreamAeV8_disagree_trailing_byte :
    ¬ (Rust.validateKey [1000003] = .ok ⟨⟩ → validateKey Nat.sqrt [1000003] = .ok ⟨⟩ →
      ((decryptStreamAeV8 zeroHmac (Rust.hmacVerify zeroHmac) Nat.sqrt [abcStream ++ [0]]
          [1000003] (FixedBytes.ofList 32 []).toList [7]).outcome = .ok ⟨⟩ ↔
        ∃ s, Rust.decryptStreamAeV8Inner zeroHmac (Rust.hmacVerify zeroHmac)
          [abcStream ++ [0]].flatten [1000003]
          (Rust.deriveFormatSubkey zeroHmac (.ofList 32 []) Rust.formatStreamAeV8) [7] =
            .ok s)) := by
  intro h
  have hrun := (@decryptStreamAeV8_eq_ok_iff zeroHmac (Rust.hmacVerify zeroHmac) [1000003] [7]
    Nat.sqrt validateKey_1000003 keyValid_1000003 (.ofList 32 []) (by decide) [abcStream ++ [0]]
    (Str.codepoints ['a', 'b', 'c'])).mpr
      ⟨abcStream, [0], List.append_nil _, streamOpensTo_abcStream⟩
  obtain ⟨s, hs⟩ := (h Rust.validateKey_1000003 validateKey_1000003).mp
    (congrArg Gen.outcome hrun)
  have hwhole := (Rust.decryptStreamAeV8Inner_eq_ok_iff keyValid_1000003 _ s).mp hs
  rw [List.flatten_cons, List.flatten_nil, List.append_nil] at hwhole
  cases streamOpensTo_abcStream.eq_nil_of_append hwhole

end Napqes.Python
