import Napqes.Python.Proofs.StreamRoundTrip

/-!
# Frames without bytes

`decrypt_stream_ae` reads a length field of zero as the end of a stream. `encrypt_stream_ae` cuts
its frames with `pending_masked[:chunk_size]`, whatever integer `chunk_size` is: from one on every
frame before the final one has bytes, but a slice up to zero is empty, and so is one up to a
negative number of no more bytes than are pending. Its loop over the pending bytes does not end
then either, until the number of the chunk no longer fits four bytes.
-/

namespace Napqes.Python

variable {H : Hmac} {noise : Noise} {key : List Nat} {kb nonce aad : List UInt8}

/-- The length field of a frame. -/
def lengthField (frame : List UInt8) : Nat := beNat (frame.take 4)

/-- The frames of a run behind its nonce, without the final frame: a run that ends well has
written that one last. -/
def chunkFrames (run : Gen PyErr (List UInt8) PUnit) : List (List UInt8) :=
  match run.outcome with
  | .ok _ => run.yielded.tail.dropLast
  | .error _ => run.yielded.tail

theorem lengthField_aeFrame {data : List UInt8} (hdata : data.length < 2 ^ 32) (idx : Nat) :
    lengthField (aeFrame H kb nonce aad idx data) = data.length := by
  rw [lengthField, aeFrame, List.take_left' (length_beBytes 4 _), beNat_beBytes_of_lt hdata]

/-! ## Number of frames -/

/-- What a part of the run has written from chunk number `idx` on: a frame for each number it has
used, no number above four bytes, and no frame without bytes if the chunk size is positive. -/
structure Flushes (cs : Int) (idx : Nat) (run : Gen PyErr (List UInt8) (List UInt8 × Nat)) :
    Prop where
  count_le : idx + run.yielded.length ≤ 2 ^ 32
  next : ∀ out, run.outcome = .ok out → out.2 = idx + run.yielded.length
  lengths : 1 ≤ cs → ∀ frame ∈ run.yielded, lengthField frame ≠ 0

variable {cs : Int} {idx : Nat}

theorem Flushes.error (hidx : idx ≤ 2 ^ 32) (e : PyErr) : Flushes cs idx ⟨[], .error e⟩ where
  count_le := hidx
  next out hout := by cases hout
  lengths _ frame hframe := by cases hframe

theorem Flushes.pure (hidx : idx ≤ 2 ^ 32) (pending : List UInt8) :
    Flushes cs idx ⟨[], .ok (pending, idx)⟩ where
  count_le := hidx
  next out hout := by
    rw [← Except.ok.inj hout]
    rfl
  lengths _ frame hframe := by cases hframe

theorem Flushes.lift_bind {α : Type} {x : Except PyErr α}
    {f : α → Gen PyErr (List UInt8) (List UInt8 × Nat)} (hidx : idx ≤ 2 ^ 32)
    (hf : ∀ a, x = .ok a → Flushes cs idx (f a)) : Flushes cs idx (liftM x >>= f) := by
  cases hx : x with
  | error e => exact .error hidx e
  | ok a => exact hf a hx

theorem Flushes.yield_bind {frame : List UInt8}
    {f : PUnit → Gen PyErr (List UInt8) (List UInt8 × Nat)}
    (hframe : 1 ≤ cs → lengthField frame ≠ 0) (hf : Flushes cs (idx + 1) (f ⟨⟩)) :
    Flushes cs idx (Gen.yield frame >>= f) := by
  have hcount := hf.count_le
  rw [Gen.yield_bind]
  refine ⟨?_, ?_, ?_⟩
  · rw [List.length_cons]
    omega
  · intro out hout
    have hnext := hf.next out hout
    rw [List.length_cons]
    omega
  · intro hcs g hg
    rcases List.mem_cons.mp hg with rfl | hg
    · exact hframe hcs
    · exact hf.lengths hcs g hg

theorem Flushes.bind {x : Gen PyErr (List UInt8) (List UInt8 × Nat)}
    {f : List UInt8 × Nat → Gen PyErr (List UInt8) (List UInt8 × Nat)} (hx : Flushes cs idx x)
    (hf : ∀ out, out.2 ≤ 2 ^ 32 → Flushes cs out.2 (f out)) : Flushes cs idx (x >>= f) := by
  have hcount := hx.count_le
  cases hout : x.outcome with
  | error e =>
      rw [Gen.bind_of_error hout]
      refine ⟨hcount, ?_, hx.lengths⟩
      intro out herror
      cases herror
  | ok out =>
      have hnext := hx.next out hout
      have hrest := hf out (by omega)
      have hrestCount := hrest.count_le
      rw [Gen.bind_of_ok hout]
      refine ⟨?_, ?_, ?_⟩
      · rw [List.length_append]
        omega
      · intro out' hout'
        have hnext' := hrest.next out' hout'
        rw [List.length_append]
        omega
      · intro hcs g hg
        rcases List.mem_append.mp hg with hg | hg
        · exact hx.lengths hcs g hg
        · exact hrest.lengths hcs g hg

theorem length_sliceTo {pending : List UInt8} (hcs : 1 ≤ cs) (hlong : cs ≤ pending.length) :
    1 ≤ (sliceTo cs pending).length := by
  rw [sliceTo, if_pos (by omega), List.length_take]
  omega

theorem flushes_flushFull (hidx : idx ≤ 2 ^ 32) (pending : List UInt8) :
    Flushes cs idx (flushFull H kb nonce (beBytes 4 aad.length) aad cs pending idx) := by
  induction hleft : 2 ^ 32 - idx using Nat.strong_induction_on generalizing idx pending with
  | _ left ih =>
      by_cases hlong : cs ≤ pending.length
      · rw [flushFull_round hlong]
        apply Flushes.lift_bind hidx
        intro frame hframe
        obtain ⟨hlt, hdata, rfl⟩ := of_flushChunk hframe
        apply Flushes.yield_bind
        · intro hcs
          have hpos := length_sliceTo hcs hlong
          rw [lengthField_aeFrame hdata]
          omega
        · exact ih (2 ^ 32 - (idx + 1)) (by omega) hlt _ rfl
      · rw [flushFull, if_neg hlong]
        exact .pure hidx pending

theorem flushes_encryptStreamAeChars (hidx : idx ≤ 2 ^ 32) (plaintext : List Nat)
    (realIdx pos : Nat) (ks : Keystream) (pending : List UInt8) :
    Flushes cs idx (encryptStreamAeChars H noise key kb nonce (beBytes 4 aad.length) aad cs
      plaintext realIdx pos ks pending idx) := by
  induction plaintext generalizing idx realIdx pos ks pending with
  | nil => exact .pure hidx pending
  | cons c plaintext ih =>
      rw [encryptStreamAeChars]
      apply Flushes.lift_bind hidx
      rintro ⟨raw, pos'⟩ -
      apply Flushes.lift_bind hidx
      rintro ⟨masked, ks'⟩ -
      apply (flushes_flushFull hidx _).bind
      intro out hout
      exact ih hout _ _ _ _

/-- What the last statements add is the final frame, and nothing if the number of chunks does not
fit. -/
theorem chunkFrames_closeStream (frames : List (List UInt8)) (count : Nat) :
    chunkFrames ⟨nonce :: (frames ++ (closeStream H kb nonce aad count).yielded),
        (closeStream H kb nonce aad count).outcome⟩ = frames ∧
      (nonce :: (frames ++ (closeStream H kb nonce aad count).yielded)).length ≤
        frames.length + 2 := by
  by_cases hcount : count < 2 ^ 32
  · rw [closeStream_eq hcount]
    refine ⟨List.dropLast_concat, ?_⟩
    rw [List.length_cons, List.length_append, List.length_singleton]
  · rw [closeStream, finalTagInput, @toBytes_of_not_lt 4 _ hcount]
    refine ⟨List.append_nil frames, ?_⟩
    show (nonce :: (frames ++ [])).length ≤ frames.length + 2
    rw [List.append_nil, List.length_cons]
    omega

/-- The end of a run: the chunk of what was left, if anything was, and the final frame, unless a
counter runs over. -/
theorem chunkFrames_encryptStreamAe {mathSqrt : Nat → Nat} (hpy : validateKey mathSqrt key = .ok ⟨⟩)
    (hkb : keyBytes key = .ok kb) (haad : aad.length < 2 ^ 32) (plaintext : List Nat) (cs : Int) :
    ∃ last,
      chunkFrames (encryptStreamAe H noise mathSqrt plaintext key aad nonce cs) =
        (encryptStreamAeChars H noise key kb nonce (beBytes 4 aad.length) aad cs plaintext 0 0
          ⟨0, []⟩ [] 0).yielded ++ last ∧
      (∀ frame ∈ last, lengthField frame ≠ 0) ∧
      (encryptStreamAe H noise mathSqrt plaintext key aad nonce cs).yielded.length ≤
        2 ^ 32 + 2 := by
  have hflushes := @flushes_encryptStreamAeChars H noise key kb nonce aad cs 0 (Nat.zero_le _)
    plaintext 0 0 ⟨0, []⟩ []
  obtain ⟨hcount, hnext, -⟩ := hflushes
  rw [encryptStreamAe_eq hpy hkb haad, Gen.yield_bind]
  generalize encryptStreamAeChars H noise key kb nonce (beBytes 4 aad.length) aad cs plaintext 0 0
    ⟨0, []⟩ [] 0 = chars at hcount hnext ⊢
  obtain ⟨frames, outcome⟩ := chars
  simp only at hcount hnext
  cases outcome with
  | error e =>
      refine ⟨[], (List.append_nil _).symm, by simp, ?_⟩
      show (nonce :: frames).length ≤ 2 ^ 32 + 2
      rw [List.length_cons]
      omega
  | ok out =>
      obtain ⟨rest, count⟩ := out
      obtain rfl : count = 0 + frames.length := hnext _ rfl
      rw [Gen.ok_bind]
      simp only
      by_cases hrest : rest.isEmpty = true
      · obtain ⟨hframes, hlen⟩ :=
          @chunkFrames_closeStream H kb nonce aad frames (0 + frames.length)
        rw [if_neg (by simp [hrest])]
        refine ⟨[], by rw [hframes, List.append_nil], by simp, ?_⟩
        omega
      · rw [if_pos hrest]
        cases hframe :
            flushChunk H kb nonce (beBytes 4 aad.length) aad (0 + frames.length) rest with
        | error e =>
            refine ⟨[], rfl, by simp, ?_⟩
            show (nonce :: (frames ++ [])).length ≤ 2 ^ 32 + 2
            rw [List.append_nil, List.length_cons]
            omega
        | ok frame =>
            obtain ⟨hlt, hdata, rfl⟩ := of_flushChunk hframe
            rw [Gen.liftM_ok_bind, Gen.yield_bind]
            obtain ⟨hframes, hlen⟩ := @chunkFrames_closeStream H kb nonce aad
              (frames ++ [aeFrame H kb nonce aad (0 + frames.length) rest])
              (0 + frames.length + 1)
            rw [List.append_assoc, List.singleton_append] at hframes hlen
            refine ⟨[_], hframes, ?_, ?_⟩
            · intro frame hframe
              rw [List.mem_singleton.mp hframe, lengthField_aeFrame hdata]
              rw [List.isEmpty_iff_length_eq_zero] at hrest
              exact hrest
            · rw [List.length_append, List.length_singleton] at hlen
              exact Nat.le_trans hlen (by omega)

/-! ## Empty frames -/

/-- The first character is emitted with the tokens of the schedule; where it is not, they are too
long to be masked. -/
theorem emitChar_first (hkey : Rust.KeyUsable key)
    (hruns : ∀ pos, ∃ i, noise kb nonce (pos + i) = false) (c : Nat) :
    (∃ pos', emitChar H noise key kb nonce c 0 0 [] = .ok (rawTokens H key hruns [c], pos')) ∨
    (∃ e, emitChar H noise key kb nonce c 0 0 [] = .error e) ∧
      32 * 2 ^ 32 < (rawTokens H key hruns [c]).length := by
  have hraw : rawTokens H key hruns [c] =
      ((List.range' 0 (Schedule.gap hruns 0)).map (fillerToken H key kb nonce 0) ++
        [realToken H key kb nonce 0 c]).flatMap b128EncodeToken := by
    rw [rawTokens, rawTokensFrom, Schedule.emitFree, Schedule.emitFree, List.append_nil]
  by_cases hgap : Schedule.gap hruns 0 < 2 ^ 40
  · left
    rw [hraw, emitChar_eq_ok hkey (fun i hi => Schedule.noise_of_lt_gap hruns hi)
      (Schedule.noise_add_gap hruns 0) (by omega) (by decide), List.nil_append]
    exact ⟨_, rfl⟩
  · right
    constructor
    · cases hemit : emitChar H noise key kb nonce c 0 0 [] with
      | error e => exact ⟨e, rfl⟩
      | ok out =>
          obtain ⟨slots, -, hpos, -, hend, hplaced⟩ := placed_of_emitChar hkey (Nat.le_refl 0) hemit
          obtain ⟨i, hi, hfree⟩ := hplaced.exists_free
          have hnoise := Schedule.noise_of_lt_gap hruns (show i < Schedule.gap hruns 0 by omega)
          rw [hfree] at hnoise
          cases hnoise
    · have hle := length_le_flatMap_b128EncodeToken
        ((List.range' 0 (Schedule.gap hruns 0)).map (fillerToken H key kb nonce 0) ++
          [realToken H key kb nonce 0 c])
      rw [← hraw, List.length_append, List.length_map, List.length_range'] at hle
      omega

/-- A slice up to zero or a negative number leaves out as many bytes at the end, if there are as
many. -/
theorem length_sliceTo_of_le_zero (hcs : cs ≤ 0) (pending : List UInt8) :
    (cs = 0 ∧ (sliceTo cs pending).length = 0) ∨
      (cs < 0 ∧ (sliceTo cs pending).length = pending.length - cs.natAbs ∧
        (deleteTo cs pending).length ≤ cs.natAbs) := by
  by_cases hzero : cs = 0
  · left
    refine ⟨hzero, ?_⟩
    rw [sliceTo, if_pos (by omega), hzero]
    rfl
  · right
    refine ⟨by omega, ?_, ?_⟩
    · rw [sliceTo, if_neg (by omega), List.length_take]
      omega
    · rw [deleteTo, if_neg (by omega), List.length_drop]
      omega

/-- A round of the flushing loop whose slice is empty writes a frame without bytes. -/
theorem exists_empty_of_slice {pending : List UInt8} (hlong : cs ≤ pending.length)
    (hslice : (sliceTo cs pending).length = 0) (hidx : idx < 2 ^ 32) :
    ∃ frame ∈ (flushFull H kb nonce (beBytes 4 aad.length) aad cs pending idx).yielded,
      lengthField frame = 0 := by
  have hdata : (sliceTo cs pending).length < 2 ^ 32 := by omega
  refine ⟨aeFrame H kb nonce aad idx (sliceTo cs pending), ?_, ?_⟩
  · rw [flushFull_round hlong, flushChunk_eq_ok hidx hdata, Gen.liftM_ok_bind, Gen.yield_bind]
    exact List.mem_cons_self ..
  · rw [lengthField_aeFrame hdata, hslice]

/-- Without a positive chunk size the flushing loop writes a frame without bytes in its first or
second round, unless its first frame is too long to be written at all. -/
theorem flushFull_of_le_zero (hcs : cs ≤ 0) (pending : List UInt8) :
    ((∃ frame ∈ (flushFull H kb nonce (beBytes 4 aad.length) aad cs pending 0).yielded,
        lengthField frame = 0) ∧ ¬ (cs < 0 ∧ 2 ^ 32 ≤ pending.length + cs)) ∨
      ((∃ e, flushFull H kb nonce (beBytes 4 aad.length) aad cs pending 0 = ⟨[], .error e⟩) ∧
        cs < 0 ∧ 2 ^ 32 ≤ pending.length + cs) := by
  have hlong : cs ≤ pending.length := by omega
  rcases length_sliceTo_of_le_zero hcs pending with ⟨hzero, hslice⟩ | ⟨hneg, hslice, hdelete⟩
  · left
    exact ⟨exists_empty_of_slice hlong hslice (by decide), by omega⟩
  · by_cases hdata : (sliceTo cs pending).length < 2 ^ 32
    · left
      refine ⟨?_, by omega⟩
      by_cases hempty : (sliceTo cs pending).length = 0
      · exact exists_empty_of_slice hlong hempty (by decide)
      · have hnext : (sliceTo cs (deleteTo cs pending)).length = 0 := by
          rcases length_sliceTo_of_le_zero hcs (deleteTo cs pending) with ⟨-, h⟩ | ⟨-, h, -⟩
          · exact h
          · omega
        obtain ⟨frame, hframe, hlen⟩ := @exists_empty_of_slice H kb nonce aad cs 1
          (deleteTo cs pending) (by omega) hnext (by decide)
        refine ⟨frame, ?_, hlen⟩
        rw [flushFull_round hlong, flushChunk_eq_ok (by decide) hdata, Gen.liftM_ok_bind,
          Gen.yield_bind]
        exact List.mem_cons_of_mem _ hframe
    · right
      refine ⟨?_, hneg, by omega⟩
      rw [flushFull_round hlong]
      cases hframe : flushChunk H kb nonce (beBytes 4 aad.length) aad 0 (sliceTo cs pending) with
      | error e => exact ⟨e, rfl⟩
      | ok frame => exact absurd (of_flushChunk hframe).2.1 hdata

/-- The characters of a plaintext are written without an empty frame exactly when the chunk size is
positive, or when the first character ends the run before its frame. -/
theorem encryptStreamAeChars_nonempty_iff (hkey : Rust.KeyUsable key)
    (hruns : ∀ pos, ∃ i, noise kb nonce (pos + i) = false) (plaintext : List Nat) :
    (∀ frame ∈ (encryptStreamAeChars H noise key kb nonce (beBytes 4 aad.length) aad cs plaintext 0
        0 ⟨0, []⟩ [] 0).yielded, lengthField frame ≠ 0) ↔
      1 ≤ cs ∨ plaintext = [] ∨
        32 * 2 ^ 32 < (rawTokens H key hruns (plaintext.take 1)).length ∨
        (cs < 0 ∧ 2 ^ 32 ≤ (rawTokens H key hruns (plaintext.take 1)).length + cs) := by
  by_cases hcs : 1 ≤ cs
  · have hflushes := @flushes_encryptStreamAeChars H noise key kb nonce aad cs 0 (Nat.zero_le _)
      plaintext 0 0 ⟨0, []⟩ []
    exact iff_of_true (hflushes.lengths hcs) (.inl hcs)
  · cases plaintext with
    | nil => exact iff_of_true (by simp [encryptStreamAeChars]) (.inr (.inl rfl))
    | cons c plaintext =>
        rw [List.take_succ_cons, List.take_zero, encryptStreamAeChars]
        rcases @emitChar_first H noise key kb nonce hkey hruns c with
          ⟨pos', hemit⟩ | ⟨⟨e, hemit⟩, hlong⟩
        · rw [hemit, Gen.liftM_ok_bind]
          simp only
          by_cases hover : (rawTokens H key hruns [c]).length ≤ 32 * 2 ^ 32
          · obtain ⟨ks', hmask, -⟩ :=
              (@Keystream.At.init H kb nonce).exists_mask ((Nat.zero_add _).trans_le hover)
            have hlen := @length_maskAt H kb nonce 0 (rawTokens H key hruns [c])
            rw [hmask, Gen.liftM_ok_bind, List.nil_append]
            simp only
            rcases @flushFull_of_le_zero H kb nonce aad cs (by omega)
              (maskAt H kb nonce 0 (rawTokens H key hruns [c])) with
              ⟨⟨frame, hframe, hempty⟩, hshort⟩ | ⟨⟨e, hflush⟩, hneg, hlong⟩
            · rw [hlen] at hshort
              apply iff_of_false
              · intro hall
                exact hall frame (Gen.mem_bind_yielded hframe _) hempty
              · rintro (hpos | hnil | hlong | hlong)
                · exact hcs hpos
                · cases hnil
                · omega
                · exact hshort hlong
            · rw [hlen] at hlong
              rw [hflush, Gen.error_bind]
              exact iff_of_true (by simp) (.inr (.inr (.inr ⟨hneg, hlong⟩)))
          · cases hmask : Keystream.mask H kb nonce (rawTokens H key hruns [c]) ⟨0, []⟩ with
            | error e => exact iff_of_true (by simp) (.inr (.inr (.inl (Nat.lt_of_not_le hover))))
            | ok out =>
                obtain ⟨-, -, hle⟩ := Keystream.At.init.of_mask hmask
                rw [Nat.zero_add] at hle
                exact absurd hle hover
        · rw [hemit, Gen.liftM_error_bind]
          exact iff_of_true (by simp) (.inr (.inr (.inl hlong)))

theorem chunkFrames_nonempty_iff {mathSqrt : Nat → Nat} (hpy : validateKey mathSqrt key = .ok ⟨⟩)
    (hkb : keyBytes key = .ok kb) (hruns : ∀ pos, ∃ i, noise kb nonce (pos + i) = false)
    (haad : aad.length < 2 ^ 32) (plaintext : List Nat) (cs : Int) :
    (∀ frame ∈ chunkFrames (encryptStreamAe H noise mathSqrt plaintext key aad nonce cs),
        lengthField frame ≠ 0) ↔
      1 ≤ cs ∨ plaintext = [] ∨
        32 * 2 ^ 32 < (rawTokens H key hruns (plaintext.take 1)).length ∨
        (cs < 0 ∧ 2 ^ 32 ≤ (rawTokens H key hruns (plaintext.take 1)).length + cs) := by
  obtain ⟨last, hframes, hlast, -⟩ :=
    @chunkFrames_encryptStreamAe H noise key kb nonce aad mathSqrt hpy hkb haad plaintext cs
  rw [hframes, List.forall_mem_append, and_iff_left hlast]
  exact encryptStreamAeChars_nonempty_iff (keyUsable_of_validateKey hpy) hruns plaintext

/-! ## Main result -/

section
variable (H : Hmac) (noise : Noise) (mathSqrt : Nat → Nat) (key : List Nat)
  (nonce : FixedBytes 16)

/-- Where every run of noise ends, `encrypt_stream_ae` ends after at most `2 ^ 32 + 2` values, for
any integer `chunk_size`. No frame before the final one has a length field of zero exactly when the
chunk size is positive or the run writes no frame at all before its first character is flushed: an
empty plaintext, additional data too long for its length field, a first character with more noise
before it than the keystream masks, or a negative chunk size that leaves a first frame too long for
its length field. -/
theorem ae_frames_nonempty_iff (hkey : validateKey mathSqrt key = .ok ⟨⟩)
    (hruns : ∀ pos, ∃ i, noise (Rust.keyBytes key) nonce.toList (pos + i) = false)
    (aad : List UInt8) (plaintext : List Nat) (chunkSize : Int) :
    (encryptStreamAe H noise mathSqrt plaintext key aad nonce.toList chunkSize).yielded.length ≤
      2 ^ 32 + 2 ∧
    ((∀ frame ∈ chunkFrames
        (encryptStreamAe H noise mathSqrt plaintext key aad nonce.toList chunkSize),
        lengthField frame ≠ 0) ↔
      1 ≤ chunkSize ∨ plaintext = [] ∨ 2 ^ 32 ≤ aad.length ∨
        32 * 2 ^ 32 < (rawTokens H key hruns (plaintext.take 1)).length ∨
        (chunkSize < 0 ∧
          2 ^ 32 ≤ (rawTokens H key hruns (plaintext.take 1)).length + chunkSize)) := by
  have hkb := keyBytes_of_validateKey hkey
  by_cases haad : aad.length < 2 ^ 32
  · obtain ⟨-, -, -, hcount⟩ :=
      @chunkFrames_encryptStreamAe H noise key _ nonce.toList aad mathSqrt hkey hkb haad plaintext
        chunkSize
    refine ⟨hcount, ?_⟩
    rw [or_iff_right (Nat.not_le_of_lt haad)]
    exact chunkFrames_nonempty_iff hkey hkb hruns haad plaintext chunkSize
  · rw [encryptStreamAe, hkey, Gen.liftM_ok_bind, hkb, Gen.liftM_ok_bind,
      @toBytes_of_not_lt 4 _ haad, Gen.liftM_error_bind]
    refine ⟨Nat.zero_le _, iff_of_true ?_ (.inr (.inr (.inl (Nat.le_of_not_lt haad))))⟩
    intro frame hframe
    cases hframe

end

theorem length_rawTokens_97 (hruns : ∀ pos, ∃ i, noNoise kb nonce (pos + i) = false) :
    (rawTokens zeroHmac [1000003] hruns [97]).length ≤ 4 := by
  apply length_rawTokens_le (w := 3) hruns (fun pos => rfl)
  intro idx c hc
  rw [List.mem_singleton.mp hc]
  exact realToken_1000003_lt (by decide) idx

/-- One character in chunks of sixteen bytes, of none, and of all but the last five. -/
theorem ae_frames_nonempty_iff_without_noise :
    (∀ frame ∈ chunkFrames (encryptStreamAe zeroHmac noNoise Nat.sqrt [97] [1000003] []
      (FixedBytes.ofList 16 [1]).toList 16), lengthField frame ≠ 0) ∧
    ¬ (∀ frame ∈ chunkFrames (encryptStreamAe zeroHmac noNoise Nat.sqrt [97] [1000003] []
      (FixedBytes.ofList 16 [1]).toList 0), lengthField frame ≠ 0) ∧
    ¬ (∀ frame ∈ chunkFrames (encryptStreamAe zeroHmac noNoise Nat.sqrt [97] [1000003] []
      (FixedBytes.ofList 16 [1]).toList (-5)), lengthField frame ≠ 0) := by
  have hruns : ∀ pos, ∃ i, noNoise (Rust.keyBytes [1000003])
      (FixedBytes.ofList 16 [1]).toList (pos + i) = false := fun pos => ⟨0, rfl⟩
  have hlen : (rawTokens zeroHmac [1000003] hruns ([97].take 1)).length ≤ 4 :=
    length_rawTokens_97 hruns
  have hmain := fun cs => (ae_frames_nonempty_iff zeroHmac noNoise Nat.sqrt [1000003]
    (.ofList 16 [1]) validateKey_1000003 hruns [] [97] cs).2
  refine ⟨(hmain 16).mpr (.inl (by decide)), ?_, ?_⟩
  · rw [hmain 0]
    rintro (hpos | hnil | haad | hlong | ⟨hneg, -⟩)
    · cases hpos
    · cases hnil
    · exact absurd haad (by decide)
    · omega
    · cases hneg
  · rw [hmain (-5)]
    rintro (hpos | hnil | haad | hlong | ⟨-, hlong⟩)
    · cases hpos
    · cases hnil
    · exact absurd haad (by decide)
    · omega
    · omega

/-- With a chunk size of zero the first frame has no bytes. -/
theorem ae_frames_empty_for_chunk_size_zero :
    ¬ ∀ (H : Hmac) (noise : Noise) (mathSqrt : Nat → Nat) (key : List Nat) (nonce : FixedBytes 16),
      validateKey mathSqrt key = .ok ⟨⟩ →
      (∀ pos, ∃ i, noise (Rust.keyBytes key) nonce.toList (pos + i) = false) →
      ∀ (aad : List UInt8) (plaintext : List Nat) (chunkSize : Int),
      ∀ frame ∈ chunkFrames
        (encryptStreamAe H noise mathSqrt plaintext key aad nonce.toList chunkSize),
        lengthField frame ≠ 0 := by
  intro hclaim
  have hruns : ∀ pos, ∃ i, noNoise (Rust.keyBytes [1000003])
      (FixedBytes.ofList 16 [1]).toList (pos + i) = false := fun pos => ⟨0, rfl⟩
  have hlen : (rawTokens zeroHmac [1000003] hruns ([97].take 1)).length ≤ 4 :=
    length_rawTokens_97 hruns
  have hall := hclaim zeroHmac noNoise Nat.sqrt [1000003] (.ofList 16 [1]) validateKey_1000003 hruns
    [] [97] 0
  rw [chunkFrames_nonempty_iff validateKey_1000003 (keyBytes_of_keyValid keyValid_1000003) hruns
    (by decide)] at hall
  rcases hall with hpos | hnil | hlong | hneg
  · cases hpos
  · cases hnil
  · omega
  · exact absurd hneg.1 (by decide)

end Napqes.Python
