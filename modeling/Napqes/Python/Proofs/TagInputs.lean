import Napqes.Python.Proofs.Block
import Napqes.Python.Stream

/-!
# The tag inputs of the v7 formats

One HMAC key serves the block tag, the tag of `encrypt_stream`, and the chunk and final tags of
`encrypt_stream_ae`. Block and stream share the domain byte but not the order of nonce and
associated data, so the input of one can be the input of the other. Which inputs can is decided
by the four bytes that the other format reads as a length.
-/

namespace Napqes.Python

/-- Associated data whose length fits the four-byte prefix. -/
structure ShortAad where
  bytes : List UInt8
  length_lt : bytes.length < 2 ^ 32
  deriving DecidableEq

theorem ShortAad.ext {a b : ShortAad} (h : a.bytes = b.bytes) : a = b := by
  cases a
  cases b
  simpa using h

/-- What a v7 tag is computed over, with the format it belongs to. -/
inductive TagItem where
  | block (nonce : FixedBytes 16) (aad : ShortAad) (body : List UInt8)
  | stream (nonce : FixedBytes 16) (aad : ShortAad) (body : List UInt8)
  | chunk (nonce : FixedBytes 16) (aad : ShortAad) (idx : Fin (2 ^ 32)) (body : List UInt8)
  | final (nonce : FixedBytes 16) (aad : ShortAad) (idx : Fin (2 ^ 32))

namespace TagItem

/-- The bytes under the tag. -/
def input : TagItem → List UInt8
  | block nonce aad body =>
      0x03 :: (nonce.toList ++ (beBytes 4 aad.bytes.length ++ (aad.bytes ++ body)))
  | stream nonce aad body =>
      0x03 :: (beBytes 4 aad.bytes.length ++ (aad.bytes ++ nonce.toList)) ++ body
  | chunk nonce aad idx body =>
      0x08 :: (nonce.toList ++ (beBytes 4 aad.bytes.length ++
        (aad.bytes ++ (beBytes 4 idx ++ body))))
  | final nonce aad idx =>
      0x09 :: (nonce.toList ++ (beBytes 4 aad.bytes.length ++ (aad.bytes ++ beBytes 4 idx)))

/-- A block is separate if the first four bytes of its nonce, read as the length of associated
data, ask for more than there is; a stream, if the bytes where a block has that length do. -/
def Separate : TagItem → Prop
  | block nonce aad body => aad.bytes.length + body.length < beNat (nonce.toList.take 4)
  | stream nonce aad body => aad.bytes.length + body.length <
      beNat (((aad.bytes ++ (nonce.toList ++ body)).drop 12).take 4)
  | chunk .. => True
  | final .. => True

end TagItem

/-! ## The inputs the functions form -/

theorem toBytes_length_short (aad : ShortAad) :
    toBytes 4 aad.bytes.length = .ok (beBytes 4 aad.bytes.length) := toBytes_of_lt aad.length_lt

namespace TagItem

/-- The tag as the source computes it: `_compute_auth_tag`, the running HMAC of `encrypt_stream`,
`_flush_chunk`, and the last lines of `encrypt_stream_ae`. -/
def tag (H : Hmac) (kb : List UInt8) : TagItem → PyM (List UInt8)
  | block nonce aad body => computeAuthTag H kb aad.bytes (nonce.toList ++ body) 4
  | stream nonce aad body => do
      let h ← streamTagStart aad.bytes nonce.toList
      return (H kb (h ++ body)).toList
  | chunk nonce aad idx body => do
      let aadLen4 ← toBytes 4 aad.bytes.length
      return (H kb (← chunkTagInput nonce.toList aadLen4 aad.bytes idx body)).toList
  | final nonce aad idx => do
      let aadLen4 ← toBytes 4 aad.bytes.length
      return (H kb (← finalTagInput nonce.toList aadLen4 aad.bytes idx)).toList

/-- Each tag is the HMAC of its input. -/
theorem tag_eq (H : Hmac) (kb : List UInt8) (x : TagItem) :
    x.tag H kb = .ok (H kb x.input).toList := by
  cases x with
  | block nonce aad body =>
      rw [tag, computeAuthTag, toBytes_length_short, ok_bind, nonceSize,
        List.take_left' nonce.length_toList, List.drop_left' nonce.length_toList]
      rfl
  | stream nonce aad body =>
      rw [tag, streamTagStart, toBytes_length_short]
      rfl
  | chunk nonce aad idx body =>
      have hidx : idx.val < 256 ^ 4 := idx.isLt
      rw [tag, toBytes_length_short, ok_bind, chunkTagInput, toBytes_of_lt hidx]
      rfl
  | final nonce aad idx =>
      have hidx : idx.val < 256 ^ 4 := idx.isLt
      rw [tag, toBytes_length_short, ok_bind, finalTagInput, toBytes_of_lt hidx]
      rfl

end TagItem

/-! ## Within one format -/

namespace TagItem

/-- Nonce, associated data and the rest of an input are determined by it. -/
theorem nonce_aad_inj {n n' : FixedBytes 16} {a a' : ShortAad} {c c' : List UInt8}
    (h : n.toList ++ (beBytes 4 a.bytes.length ++ (a.bytes ++ c)) =
      n'.toList ++ (beBytes 4 a'.bytes.length ++ (a'.bytes ++ c'))) :
    n = n' ∧ a = a' ∧ c = c' := by
  obtain ⟨hnonce, hrest⟩ := append_inj_of_length n.length_toList n'.length_toList h
  obtain ⟨haad, hc⟩ := lenPrefixed_append_inj (w := 4) a.length_lt a'.length_lt hrest
  exact ⟨FixedBytes.ext hnonce, ShortAad.ext haad, hc⟩

theorem block_inj {n n' : FixedBytes 16} {a a' : ShortAad} {b b' : List UInt8}
    (h : (block n a b).input = (block n' a' b').input) : block n a b = block n' a' b' := by
  obtain ⟨rfl, rfl, rfl⟩ := nonce_aad_inj (List.cons.inj h).2
  rfl

theorem input_stream (n : FixedBytes 16) (a : ShortAad) (b : List UInt8) :
    (stream n a b).input =
      0x03 :: (beBytes 4 a.bytes.length ++ (a.bytes ++ (n.toList ++ b))) := by
  simp only [input, List.cons_append, List.append_assoc]

theorem stream_inj {n n' : FixedBytes 16} {a a' : ShortAad} {b b' : List UInt8}
    (h : (stream n a b).input = (stream n' a' b').input) : stream n a b = stream n' a' b' := by
  rw [input_stream, input_stream] at h
  obtain ⟨haad, hrest⟩ :=
    lenPrefixed_append_inj (w := 4) a.length_lt a'.length_lt (List.cons.inj h).2
  obtain ⟨hnonce, hbody⟩ := append_inj_of_length n.length_toList n'.length_toList hrest
  rw [FixedBytes.ext hnonce, ShortAad.ext haad, hbody]

theorem chunk_inj {n n' : FixedBytes 16} {a a' : ShortAad} {i i' : Fin (2 ^ 32)}
    {b b' : List UInt8} (h : (chunk n a i b).input = (chunk n' a' i' b').input) :
    chunk n a i b = chunk n' a' i' b' := by
  obtain ⟨rfl, rfl, hrest⟩ := nonce_aad_inj (List.cons.inj h).2
  obtain ⟨hidx, rfl⟩ := beBytes_append_inj (w := 4) i.isLt i'.isLt hrest
  rw [Fin.ext hidx]

theorem final_inj {n n' : FixedBytes 16} {a a' : ShortAad} {i i' : Fin (2 ^ 32)}
    (h : (final n a i).input = (final n' a' i').input) : final n a i = final n' a' i' := by
  obtain ⟨rfl, rfl, hidx⟩ := nonce_aad_inj (List.cons.inj h).2
  rw [Fin.ext (beBytes_inj (w := 4) i.isLt i'.isLt hidx)]

/-! ## Block against stream -/

/-- Bytes read as a four-byte length, associated data of that length and at least `m` bytes more
exactly when they are long enough for the length they start with. -/
theorem exists_lenPrefixed_iff {s : List UInt8} {m : Nat} (hs : 4 ≤ s.length) :
    (∃ (a : ShortAad) (c : List UInt8),
      m ≤ c.length ∧ s = beBytes 4 a.bytes.length ++ (a.bytes ++ c)) ↔
      4 + beNat (s.take 4) + m ≤ s.length := by
  constructor
  · intro h
    obtain ⟨a, c, hc, rfl⟩ := h
    have ha : a.bytes.length < 256 ^ 4 := a.length_lt
    rw [List.take_left' (length_beBytes ..), beNat_beBytes_of_lt ha]
    simp only [List.length_append, length_beBytes]
    omega
  · intro h
    have hfour : (s.take 4).length = 4 := by rw [List.length_take, Nat.min_eq_left hs]
    have hlt : beNat (s.take 4) < 256 ^ 4 := by
      have := beNat_lt (s.take 4)
      rwa [hfour] at this
    have haad : ((s.drop 4).take (beNat (s.take 4))).length = beNat (s.take 4) := by
      rw [List.length_take, List.length_drop]
      omega
    have hsplit : s = beBytes 4 ((s.drop 4).take (beNat (s.take 4))).length ++
        ((s.drop 4).take (beNat (s.take 4)) ++ (s.drop 4).drop (beNat (s.take 4))) := by
      rw [haad, beBytes_beNat_of_length hfour, List.take_append_drop, List.take_append_drop]
    refine ⟨⟨(s.drop 4).take (beNat (s.take 4)), haad.symm ▸ hlt⟩,
      (s.drop 4).drop (beNat (s.take 4)), ?_, hsplit⟩
    simp only [List.length_drop]
    omega

/-- The input of a block is that of some stream exactly when the block is not separate. -/
theorem exists_stream_iff (n : FixedBytes 16) (a : ShortAad) (b : List UInt8) :
    (∃ n' a' b', (block n a b).input = (stream n' a' b').input) ↔ ¬ (block n a b).Separate := by
  have hlen : (n.toList ++ (beBytes 4 a.bytes.length ++ (a.bytes ++ b))).length =
      20 + (a.bytes.length + b.length) := by
    simp only [List.length_append, length_beBytes, FixedBytes.length_toList]
    omega
  have htake : (n.toList ++ (beBytes 4 a.bytes.length ++ (a.bytes ++ b))).take 4 =
      n.toList.take 4 := List.take_append_of_le_length (by simp)
  have hparse := exists_lenPrefixed_iff (m := 16) (hlen.ge.trans' (by omega : 4 ≤ _))
  rw [htake, hlen] at hparse
  rw [Separate, Nat.not_lt, ← Nat.add_le_add_iff_left (n := 20)]
  constructor
  · intro h
    obtain ⟨n', a', b', heq⟩ := h
    rw [input_stream] at heq
    have hread := hparse.mp ⟨a', n'.toList ++ b', by simp, (List.cons.inj heq).2⟩
    omega
  · intro h
    obtain ⟨a', c, hc, heq⟩ := hparse.mpr (by omega)
    refine ⟨⟨c.take 16, by simpa using hc⟩, a', c.drop 16, ?_⟩
    rw [input_stream, List.take_append_drop, input, heq]

/-- The input of a stream is that of some block exactly when the stream is not separate. -/
theorem exists_block_iff (n : FixedBytes 16) (a : ShortAad) (b : List UInt8) :
    (∃ n' a' b', (stream n a b).input = (block n' a' b').input) ↔
      ¬ (stream n a b).Separate := by
  set s := beBytes 4 a.bytes.length ++ (a.bytes ++ (n.toList ++ b)) with hs
  have hinput : (stream n a b).input = 0x03 :: s := input_stream n a b
  have hlen : s.length = 20 + (a.bytes.length + b.length) := by
    simp only [hs, List.length_append, length_beBytes, FixedBytes.length_toList]
    omega
  have hdrop : s.drop 16 = (a.bytes ++ (n.toList ++ b)).drop 12 := by
    rw [hs, ← List.drop_drop (i := 12) (j := 4), List.drop_left' (length_beBytes ..)]
  have hdropLen : (s.drop 16).length = 4 + (a.bytes.length + b.length) := by
    rw [List.length_drop, hlen]
    omega
  have hparse := exists_lenPrefixed_iff (m := 0) (hdropLen.ge.trans' (by omega : 4 ≤ _))
  rw [hdropLen, hdrop] at hparse
  rw [Separate, Nat.not_lt]
  constructor
  · intro h
    obtain ⟨n', a', b', heq⟩ := h
    have htail := (List.cons.inj (hinput.symm.trans heq)).2
    have hread := hparse.mp ⟨a', b', Nat.zero_le _, by
      rw [← hdrop, htail, List.drop_left' n'.length_toList]⟩
    omega
  · intro h
    obtain ⟨a', c, -, heq⟩ := hparse.mpr (by omega)
    refine ⟨⟨s.take 16, by rw [List.length_take, hlen]; omega⟩, a', c, ?_⟩
    rw [hinput, input, ← heq, ← hdrop, List.take_append_drop]

end TagItem

/-! ## All formats -/

/-- The input under a tag belongs to one format and one choice of nonce, associated data, index
and body exactly when it is separate. -/
theorem tagInput_unique_iff (x : TagItem) : (∀ y, x.input = y.input → x = y) ↔ x.Separate := by
  cases x with
  | block n a b =>
      constructor
      · intro hunique
        by_contra hsep
        obtain ⟨n', a', b', heq⟩ := (TagItem.exists_stream_iff n a b).mpr hsep
        cases hunique _ heq
      · intro hsep y heq
        cases y with
        | block n' a' b' => exact TagItem.block_inj heq
        | stream n' a' b' =>
            exact absurd hsep ((TagItem.exists_stream_iff n a b).mp ⟨n', a', b', heq⟩)
        | chunk => simp [TagItem.input] at heq
        | final => simp [TagItem.input] at heq
  | stream n a b =>
      constructor
      · intro hunique
        by_contra hsep
        obtain ⟨n', a', b', heq⟩ := (TagItem.exists_block_iff n a b).mpr hsep
        cases hunique _ heq
      · intro hsep y heq
        cases y with
        | block n' a' b' =>
            exact absurd hsep ((TagItem.exists_block_iff n a b).mp ⟨n', a', b', heq⟩)
        | stream n' a' b' => exact TagItem.stream_inj heq
        | chunk => simp [TagItem.input] at heq
        | final => simp [TagItem.input] at heq
  | chunk n a i b =>
      refine iff_of_true ?_ trivial
      intro y heq
      cases y with
      | chunk n' a' i' b' => exact TagItem.chunk_inj heq
      | block => simp [TagItem.input] at heq
      | stream => simp [TagItem.input] at heq
      | final => simp [TagItem.input] at heq
  | final n a i =>
      refine iff_of_true ?_ trivial
      intro y heq
      cases y with
      | final n' a' i' => exact TagItem.final_inj heq
      | block => simp [TagItem.input] at heq
      | stream => simp [TagItem.input] at heq
      | chunk => simp [TagItem.input] at heq

/-- A stream with sixteen zero bytes of associated data and no body. -/
def zeroAadStream : TagItem :=
  .stream ⟨[1, 2, 3, 4, 5, 6, 7, 8, 9, 10, 11, 12, 13, 14, 15, 16], rfl⟩
    ⟨[0, 0, 0, 0, 0, 0, 0, 0, 0, 0, 0, 0, 0, 0, 0, 0], by decide⟩ []

/-- A block without associated data whose nonce starts with the number sixteen. -/
def sixteenNonceBlock : TagItem :=
  .block ⟨[0, 0, 0, 16, 0, 0, 0, 0, 0, 0, 0, 0, 0, 0, 0, 0], rfl⟩ ⟨[], by decide⟩
    [1, 2, 3, 4, 5, 6, 7, 8, 9, 10, 11, 12, 13, 14, 15, 16]

/-- The tag of the stream authenticates the block, under every key. -/
theorem zeroAadStream_tag_sixteenNonceBlock :
    zeroAadStream.input = sixteenNonceBlock.input ∧ zeroAadStream ≠ sixteenNonceBlock ∧
      ∀ (H : Hmac) (kb : List UInt8), zeroAadStream.tag H kb = sixteenNonceBlock.tag H kb := by
  have hinput : zeroAadStream.input = sixteenNonceBlock.input := by decide
  refine ⟨hinput, ?_, ?_⟩
  · intro heq
    cases heq
  · intro H kb
    rw [TagItem.tag_eq, TagItem.tag_eq, hinput]

end Napqes.Python
