import Napqes.Misc.Pieces
import Napqes.Python.Proofs.StreamV7

/-!
# Streams with a tag on every chunk

`encrypt_stream_ae` cuts the masked bytes of its plaintext into pieces of the chunk size, however
the characters fall into them, and writes a tagged frame for each and a last tag over their number.
`decrypt_stream_ae` unmasks and decodes the pieces one after the other; since neither the keystream
nor the decoder sees where a piece ends, it finds the plaintext.
-/

namespace Napqes.Python

variable {H : Hmac} {noise : Noise} {key : List Nat} {kb nonce aad : List UInt8}

/-! ## Frames -/

section
variable (H kb nonce aad)

/-- The input of the tag of a chunk. -/
def aeChunkInput (idx : Nat) (data : List UInt8) : List UInt8 :=
  0x08 :: (nonce ++ (beBytes 4 aad.length ++ (aad ++ (beBytes 4 idx ++ data))))

/-- The input of the final tag. -/
def aeFinalInput (count : Nat) : List UInt8 :=
  0x09 :: (nonce ++ (beBytes 4 aad.length ++ (aad ++ beBytes 4 count)))

/-- A chunk on the wire. -/
def aeFrame (idx : Nat) (data : List UInt8) : List UInt8 :=
  beBytes 4 data.length ++ (data ++ (H kb (aeChunkInput nonce aad idx data)).toList)

/-- Consecutive chunks from number `idx` on. -/
def aeFrames : Nat → List (List UInt8) → List (List UInt8)
  | _, [] => []
  | idx, data :: pieces => aeFrame H kb nonce aad idx data :: aeFrames (idx + 1) pieces

/-- The end of a stream of `count` chunks. -/
def aeFinal (count : Nat) : List UInt8 :=
  beBytes 4 0 ++ (H kb (aeFinalInput nonce aad count)).toList

end

theorem aeFrames_append (idx : Nat) (ps qs : List (List UInt8)) :
    aeFrames H kb nonce aad idx (ps ++ qs) =
      aeFrames H kb nonce aad idx ps ++ aeFrames H kb nonce aad (idx + ps.length) qs := by
  induction ps generalizing idx with
  | nil => rfl
  | cons p ps ih =>
      rw [List.cons_append, aeFrames, aeFrames, ih, List.length_cons, Nat.add_right_comm,
        Nat.add_assoc]
      rfl

@[simp] theorem length_aeFrames (idx : Nat) (ps : List (List UInt8)) :
    (aeFrames H kb nonce aad idx ps).length = ps.length := by
  induction ps generalizing idx with
  | nil => rfl
  | cons p ps ih => rw [aeFrames, List.length_cons, ih, List.length_cons]

theorem getElem?_aeFrames (idx k : Nat) (ps : List (List UInt8)) :
    (aeFrames H kb nonce aad idx ps)[k]? = ps[k]?.map (aeFrame H kb nonce aad (idx + k)) := by
  induction ps generalizing idx k with
  | nil => rfl
  | cons p ps ih =>
      cases k with
      | zero => rfl
      | succ k =>
          rw [aeFrames, List.getElem?_cons_succ, List.getElem?_cons_succ, ih, Nat.add_assoc,
            Nat.add_comm 1]

theorem chunkTagInput_eq_ok {idx : Nat} (hidx : idx < 2 ^ 32) (data : List UInt8) :
    chunkTagInput nonce (beBytes 4 aad.length) aad idx data =
      .ok (aeChunkInput nonce aad idx data) := by
  rw [chunkTagInput, toBytes_of_lt hidx]
  rfl

theorem finalTagInput_eq_ok {count : Nat} (hcount : count < 2 ^ 32) :
    finalTagInput nonce (beBytes 4 aad.length) aad count = .ok (aeFinalInput nonce aad count) := by
  rw [finalTagInput, toBytes_of_lt hcount]
  rfl

theorem flushChunk_eq_ok {idx : Nat} (hidx : idx < 2 ^ 32) {data : List UInt8}
    (hdata : data.length < 2 ^ 32) :
    flushChunk H kb nonce (beBytes 4 aad.length) aad idx data =
      .ok (aeFrame H kb nonce aad idx data) := by
  rw [flushChunk, chunkTagInput_eq_ok hidx, ok_bind, toBytes_of_lt hdata]
  rfl

/-- A chunk that is written has a number and a length of four bytes. -/
theorem of_flushChunk {idx : Nat} {data frame : List UInt8}
    (h : flushChunk H kb nonce (beBytes 4 aad.length) aad idx data = .ok frame) :
    idx < 2 ^ 32 ∧ data.length < 2 ^ 32 ∧ frame = aeFrame H kb nonce aad idx data := by
  have hidx : idx < 2 ^ 32 := lt_of_flushChunk H h
  rw [flushChunk, chunkTagInput_eq_ok hidx, ok_bind] at h
  obtain ⟨field, hfield, hframe⟩ := bind_eq_ok.mp h
  obtain ⟨hdata, rfl⟩ := toBytes_eq_ok_iff.mp hfield
  exact ⟨hidx, hdata, (Except.ok.inj hframe).symm⟩

/-! ## Encryption -/

theorem flushFull_short {cs : Nat} {pending : List UInt8} (hshort : pending.length < cs)
    (idx : Nat) :
    flushFull H kb nonce (beBytes 4 aad.length) aad cs pending idx = ⟨[], .ok (pending, idx)⟩ := by
  have hcond : ¬ (pending.length : Int) ≥ (cs : Int) := by omega
  rw [flushFull, if_neg hcond]
  rfl

/-- One round of the flushing loop, whatever the chunk size is. -/
theorem flushFull_round {cs : Int} {pending : List UInt8} (hlong : cs ≤ pending.length)
    (idx : Nat) :
    flushFull H kb nonce (beBytes 4 aad.length) aad cs pending idx =
      liftM (flushChunk H kb nonce (beBytes 4 aad.length) aad idx (sliceTo cs pending)) >>=
        fun frame => Gen.yield frame >>= fun _ =>
          flushFull H kb nonce (beBytes 4 aad.length) aad cs (deleteTo cs pending) (idx + 1) := by
  rw [flushFull, if_pos hlong]
  split
  case h_1 e he =>
    rw [he]
    rfl
  case h_2 frame he =>
    rw [he]
    rfl

theorem flushFull_long {cs : Nat} {pending : List UInt8} (hlong : cs ≤ pending.length) (idx : Nat) :
    flushFull H kb nonce (beBytes 4 aad.length) aad cs pending idx =
      liftM (flushChunk H kb nonce (beBytes 4 aad.length) aad idx (pending.take cs)) >>=
        fun frame => Gen.yield frame >>= fun _ =>
          flushFull H kb nonce (beBytes 4 aad.length) aad cs (pending.drop cs) (idx + 1) := by
  have hslice : sliceTo cs pending = pending.take cs := if_pos (by omega)
  have hdelete : deleteTo cs pending = pending.drop cs := if_pos (by omega)
  rw [flushFull_round (Int.ofNat_le.mpr hlong), hslice, hdelete]

/-- The flushing loop cuts full pieces off its buffer. -/
theorem cut_of_flushFull {cs : Nat} (hcs : 1 ≤ cs) {pending rest : List UInt8} {idx idx' : Nat}
    (h : (flushFull H kb nonce (beBytes 4 aad.length) aad cs pending idx).outcome =
      .ok (rest, idx')) :
    ∃ full, Cut cs pending full rest ∧ (∀ p ∈ full, p.length < 2 ^ 32) ∧
      idx' = idx + full.length ∧
      (flushFull H kb nonce (beBytes 4 aad.length) aad cs pending idx).yielded =
        aeFrames H kb nonce aad idx full := by
  induction hn : pending.length using Nat.strong_induction_on generalizing pending idx with
  | _ n ih =>
      by_cases hlong : cs ≤ pending.length
      · rw [flushFull_long hlong] at h ⊢
        obtain ⟨frame, hframe, hrest⟩ := Gen.bind_outcome_eq_ok.mp h
        change flushChunk H kb nonce (beBytes 4 aad.length) aad idx (pending.take cs) = _ at hframe
        obtain ⟨-, hdata, rfl⟩ := of_flushChunk hframe
        obtain ⟨full, hcut, hlen, hidx, hyielded⟩ :=
          ih _ (by rw [List.length_drop]; omega) hrest rfl
        have hpiece : (pending.take cs).length = cs := by rw [List.length_take]; omega
        have hcons := hcut.cons hcs hpiece
        rw [List.take_append_drop] at hcons
        refine ⟨pending.take cs :: full, hcons, ?_, ?_, ?_⟩
        · intro p hp
          rcases List.mem_cons.mp hp with rfl | hp
          · exact hdata
          · exact hlen p hp
        · rw [List.length_cons]
          omega
        · rw [hframe, Gen.liftM_ok_bind, Gen.yield_bind, aeFrames, ← hyielded]
      · rw [flushFull_short (Nat.lt_of_not_le hlong)] at h ⊢
        obtain ⟨rfl, rfl⟩ := Prod.mk.inj (Except.ok.inj h)
        exact ⟨[], .refl (Nat.lt_of_not_le hlong), by simp, rfl, rfl⟩

/-- What the loop over the characters has done: the tokens of the plaintext are masked from
`offset` on, and the full pieces of what it held and masked are written. -/
theorem cut_of_encryptStreamAeChars (hkey : Rust.KeyUsable key) {cs : Nat} (hcs : 1 ≤ cs)
    {plaintext : List Nat} {idx pos offset : Nat} {ks : Keystream} {pending rest : List UInt8}
    {chunkIdx chunkIdx' : Nat} (hidx : idx ≤ pos) (hks : ks.At H kb nonce offset)
    (hoffset : offset ≤ 32 * 2 ^ 32) (hpos : pos ≤ 2 ^ 40) (hpending : pending.length < cs)
    (h : (encryptStreamAeChars H noise key kb nonce (beBytes 4 aad.length) aad cs plaintext idx pos
      ks pending chunkIdx).outcome = .ok (rest, chunkIdx')) :
    ∃ slots full,
      Schedule.Placed (noise kb nonce) (realToken H key kb nonce) idx pos plaintext slots ∧
      pos + slots.length ≤ 2 ^ 40 ∧
      offset + (slots.flatMap b128EncodeToken).length ≤ 32 * 2 ^ 32 ∧
      Cut cs (pending ++ maskAt H kb nonce offset (slots.flatMap b128EncodeToken)) full rest ∧
      (∀ p ∈ full, p.length < 2 ^ 32) ∧
      chunkIdx' = chunkIdx + full.length ∧
      (encryptStreamAeChars H noise key kb nonce (beBytes 4 aad.length) aad cs plaintext idx pos
        ks pending chunkIdx).yielded = aeFrames H kb nonce aad chunkIdx full := by
  induction plaintext generalizing idx pos offset ks pending chunkIdx with
  | nil =>
      obtain ⟨rfl, rfl⟩ := Prod.mk.inj (Except.ok.inj h)
      refine ⟨[], [], .nil _ _, hpos, hoffset, ?_, by simp, rfl, rfl⟩
      simpa [maskAt, xorBytes] using Cut.refl hpending
  | cons c plaintext ih =>
      rw [encryptStreamAeChars] at h ⊢
      obtain ⟨⟨raw, pos'⟩, hemit, h⟩ := Gen.bind_outcome_eq_ok.mp h
      obtain ⟨⟨masked, ks'⟩, hmask, h⟩ := Gen.bind_outcome_eq_ok.mp h
      obtain ⟨⟨pending', mid⟩, hflush, h⟩ := Gen.bind_outcome_eq_ok.mp h
      change emitChar H noise key kb nonce c idx pos [] = _ at hemit
      change ks.mask H kb nonce raw = _ at hmask
      obtain ⟨slots, rfl, rfl, hnext, hend, hplaced⟩ := placed_of_emitChar hkey hidx hemit
      rw [List.nil_append] at hmask hemit
      obtain ⟨rfl, hks', hover⟩ := hks.of_mask hmask
      obtain ⟨full, hcut, hlen, rfl, hyielded⟩ := cut_of_flushFull hcs hflush
      obtain ⟨slots', full', hplaced', hpos', hover', hcut', hlen', rfl, hyielded'⟩ :=
        ih (by omega) hks' hover hend hcut.short h
      refine ⟨slots ++ slots', full ++ full', hplaced.append hplaced', ?_, ?_, ?_, ?_, ?_, ?_⟩
      · rw [List.length_append]
        omega
      · rw [List.flatMap_append, List.length_append]
        omega
      · rw [List.flatMap_append, maskAt_append, ← List.append_assoc]
        exact hcut.trans hcut'
      · intro p hp
        rcases List.mem_append.mp hp with hp | hp
        · exact hlen p hp
        · exact hlen' p hp
      · rw [List.length_append]
        omega
      · rw [hemit, Gen.liftM_ok_bind]
        simp only
        rw [hmask, Gen.liftM_ok_bind]
        simp only
        rw [Gen.bind_of_ok hflush, hyielded]
        simp only
        rw [hyielded', aeFrames_append]

/-- The raw bytes of a stream whose counters all fit their fields. -/
structure AeSealed (H : Hmac) (noise : Noise) (key : List Nat) (kb nonce aad : List UInt8)
    (cs : Nat) (plaintext : List Nat) (raw : List UInt8) : Prop where
  emitted : Emitted H noise key kb nonce plaintext raw
  aad_lt : aad.length < 2 ^ 32
  count_lt : (pieces cs (maskAt H kb nonce 0 raw)).length < 2 ^ 32
  length_lt : ∀ p ∈ pieces cs (maskAt H kb nonce 0 raw), p.length < 2 ^ 32

/-- The stream: nonce, chunks and final tag. -/
def aeStream (H : Hmac) (kb nonce aad : List UInt8) (cs : Nat) (raw : List UInt8) :
    List (List UInt8) :=
  let ps := pieces cs (maskAt H kb nonce 0 raw)
  nonce :: (aeFrames H kb nonce aad 0 ps ++ [aeFinal H kb nonce aad ps.length])

/-- The last statements of `encrypt_stream_ae`, behind the chunk of what was left. -/
def closeStream (H : Hmac) (kb nonce aad : List UInt8) (count : Nat) :
    Gen PyErr (List UInt8) PUnit := do
  let input ← finalTagInput nonce (beBytes 4 aad.length) aad count
  let field ← toBytes 4 0
  Gen.yield (field ++ (H kb input).toList)

theorem closeStream_eq {count : Nat} (h : count < 2 ^ 32) :
    closeStream H kb nonce aad count = ⟨[aeFinal H kb nonce aad count], .ok ⟨⟩⟩ := by
  rw [closeStream, finalTagInput_eq_ok h, toBytes_of_lt (by decide)]
  rfl

theorem lt_of_closeStream {count : Nat}
    (h : (closeStream H kb nonce aad count).outcome = .ok ⟨⟩) : count < 2 ^ 32 := by
  obtain ⟨input, hinput, -⟩ := Gen.bind_outcome_eq_ok.mp h
  change finalTagInput nonce (beBytes 4 aad.length) aad count = _ at hinput
  obtain ⟨field, hfield, -⟩ := bind_eq_ok.mp hinput
  exact (toBytes_eq_ok_iff.mp hfield).1

theorem encryptStreamAe_eq {mathSqrt : Nat → Nat} (hpy : validateKey mathSqrt key = .ok ⟨⟩)
    (hkb : keyBytes key = .ok kb) (haad : aad.length < 2 ^ 32) (plaintext : List Nat) (cs : Int) :
    encryptStreamAe H noise mathSqrt plaintext key aad nonce cs =
      Gen.yield nonce >>= fun _ =>
      encryptStreamAeChars H noise key kb nonce (beBytes 4 aad.length) aad cs plaintext 0 0 ⟨0, []⟩
        [] 0 >>= fun out =>
      if ¬ out.1.isEmpty then
        liftM (flushChunk H kb nonce (beBytes 4 aad.length) aad out.2 out.1) >>= fun frame =>
        Gen.yield frame >>= fun _ => closeStream H kb nonce aad (out.2 + 1)
      else closeStream H kb nonce aad out.2 := by
  rw [encryptStreamAe, hpy, Gen.liftM_ok_bind, hkb, Gen.liftM_ok_bind, toBytes_of_lt haad,
    Gen.liftM_ok_bind]
  rfl

/-- A run of `encrypt_stream_ae` that ends well has written its stream. -/
theorem sealed_of_encryptStreamAe {mathSqrt : Nat → Nat} (hpy : validateKey mathSqrt key = .ok ⟨⟩)
    (hkb : keyBytes key = .ok kb) {plaintext : List Nat} {cs : Nat} (hcs : 1 ≤ cs)
    (h : (encryptStreamAe H noise mathSqrt plaintext key aad nonce cs).outcome = .ok ⟨⟩) :
    ∃ raw, AeSealed H noise key kb nonce aad cs plaintext raw ∧
      (encryptStreamAe H noise mathSqrt plaintext key aad nonce cs).yielded =
        aeStream H kb nonce aad cs raw := by
  have hkey := keyUsable_of_validateKey hpy
  have haad : aad.length < 2 ^ 32 := by
    rw [encryptStreamAe, hpy, Gen.liftM_ok_bind, hkb, Gen.liftM_ok_bind] at h
    obtain ⟨field, hfield, -⟩ := Gen.bind_outcome_eq_ok.mp h
    change toBytes 4 aad.length = _ at hfield
    exact (toBytes_eq_ok_iff.mp hfield).1
  rw [encryptStreamAe_eq hpy hkb haad] at h ⊢
  rw [Gen.yield_bind] at h ⊢
  obtain ⟨⟨rest, idx⟩, hchars, h⟩ := Gen.bind_outcome_eq_ok.mp h
  obtain ⟨slots, full, hplaced, hpos, hover, hcut, hlen, hidx, hyielded⟩ :=
    cut_of_encryptStreamAeChars hkey hcs (Nat.le_refl 0) Keystream.At.init (Nat.zero_le _)
      (Nat.zero_le _) (by rw [List.length_nil]; omega) hchars
  rw [Nat.zero_add] at hpos hover hidx
  rw [List.nil_append] at hcut
  subst hidx
  have hemitted : Emitted H noise key kb nonce plaintext (slots.flatMap b128EncodeToken) :=
    ⟨⟨slots, hplaced, hpos, rfl⟩, hover⟩
  refine ⟨slots.flatMap b128EncodeToken, ?_⟩
  rw [Gen.bind_of_ok hchars, hyielded]
  simp only at h ⊢
  by_cases hrest : rest.isEmpty = true
  · have hpieces := hcut.pieces_eq hcs
    rw [if_pos hrest] at hpieces
    rw [if_neg (by simp [hrest])] at h ⊢
    have hcount := lt_of_closeStream h
    rw [closeStream_eq hcount]
    refine ⟨⟨hemitted, haad, by rw [hpieces]; exact hcount, ?_⟩, ?_⟩
    · rw [hpieces]
      exact hlen
    · rw [aeStream, hpieces]
  · have hpieces := hcut.pieces_eq hcs
    rw [if_neg hrest] at hpieces
    rw [if_pos hrest] at h ⊢
    obtain ⟨frame, hframe, h⟩ := Gen.bind_outcome_eq_ok.mp h
    change flushChunk H kb nonce (beBytes 4 aad.length) aad full.length rest = _ at hframe
    obtain ⟨-, hdata, rfl⟩ := of_flushChunk hframe
    have hcount := lt_of_closeStream h
    rw [hframe, Gen.liftM_ok_bind, Gen.yield_bind, closeStream_eq hcount]
    refine ⟨⟨hemitted, haad, ?_, ?_⟩, ?_⟩
    · rw [hpieces, List.length_append]
      exact hcount
    · rw [hpieces]
      intro p hp
      rcases List.mem_append.mp hp with hp | hp
      · exact hlen p hp
      · rw [List.mem_singleton.mp hp]
        exact hdata
    · rw [aeStream, hpieces, aeFrames_append, List.length_append, List.append_assoc, Nat.zero_add]
      rfl

end Napqes.Python
