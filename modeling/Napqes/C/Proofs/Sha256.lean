import Napqes.Misc.Fips180
import Napqes.C.Sha256

/-!
# The streaming hash computes FIPS 180-4

The standard pads the whole message and folds the compression function over its blocks. The context
has folded the full blocks of what it was given and keeps the rest, wherever the calls end; the two
cases of `sha256_final` are the two lengths that the padded rest can have.
-/

namespace Napqes.C

/-! ## Functions and constants -/

theorem bsig0_eq (x : UInt32) : (bsig0 x).toBitVec = Fips.bigSigma0 x.toBitVec := by
  simp [bsig0, Fips.bigSigma0, rotr, BitVec.rotateRight_def]

theorem bsig1_eq (x : UInt32) : (bsig1 x).toBitVec = Fips.bigSigma1 x.toBitVec := by
  simp [bsig1, Fips.bigSigma1, rotr, BitVec.rotateRight_def]

theorem ssig0_eq (x : UInt32) : (ssig0 x).toBitVec = Fips.sigma0 x.toBitVec := by
  simp [ssig0, Fips.sigma0, rotr, BitVec.rotateRight_def]

theorem ssig1_eq (x : UInt32) : (ssig1 x).toBitVec = Fips.sigma1 x.toBitVec := by
  simp [ssig1, Fips.sigma1, rotr, BitVec.rotateRight_def]

theorem ch_eq (x y z : UInt32) :
    (ch x y z).toBitVec = Fips.ch x.toBitVec y.toBitVec z.toBitVec := rfl

theorem maj_eq (x y z : UInt32) :
    (maj x y z).toBitVec = Fips.maj x.toBitVec y.toBitVec z.toBitVec := rfl

/-- `K256` holds the constants of the standard. -/
theorem k256_eq {t : Nat} (ht : t < 64) : (k256.getD t 0).toBitVec = Fips.k t := by
  have htable : k256.map UInt32.toBitVec =
      ((List.range 312).filter fun n => Fips.noDivisorUpTo 17 n).map fun n =>
        BitVec.ofNat 32 (Nat.nthRoot 3 (n * 2 ^ (32 * 3))) := by
    decide +kernel
  have hget := congrArg (List.getD · t 0) htable
  rw [Fips.k, Fips.rootBits_eq (by decide), Fips.nth_prime_eq ht]
  exact (List.getD_map k256 0 UInt32.toBitVec).symm.trans (hget.trans (List.getD_map _ 0 _))

/-- The state of a context, as a hash value of the standard. -/
def Sha256State.vars (s : Sha256State) : Fips.Vars where
  a := s.a.toBitVec
  b := s.b.toBitVec
  c := s.c.toBitVec
  d := s.d.toBitVec
  e := s.e.toBitVec
  f := s.f.toBitVec
  g := s.g.toBitVec
  h := s.h.toBitVec

/-- `sha256_init` starts from the initial hash value. -/
theorem sha256Init_state : sha256Init.state.vars = Fips.initial := by
  have hroot : ∀ t < 64, Fips.rootBits 2 (Nat.nth Nat.Prime t) = BitVec.ofNat 32
      (Nat.nthRoot 2 (((List.range 312).filter fun n => Fips.noDivisorUpTo 17 n).getD t 0 *
        2 ^ (32 * 2))) := by
    intro t ht
    rw [Fips.rootBits_eq (by decide), Fips.nth_prime_eq ht]
  rw [Fips.initial, hroot 0 (by decide), hroot 1 (by decide), hroot 2 (by decide),
    hroot 3 (by decide), hroot 4 (by decide), hroot 5 (by decide), hroot 6 (by decide),
    hroot 7 (by decide)]
  decide +kernel

theorem wordByte_eq (w n : UInt32) (hn : n.toNat < 32) :
    (w >>> n).toUInt8 = UInt8.ofNat (w.toNat / 2 ^ n.toNat) := by
  apply UInt8.toNat_inj.mp
  rw [UInt32.toNat_toUInt8, UInt32.toNat_shiftRight, UInt8.toNat_ofNat',
    Nat.mod_eq_of_lt hn, Nat.shiftRight_eq_div_pow]

/-- The bytes of a word are written in big-endian order. -/
theorem wordBytes_eq (w : UInt32) : wordBytes w = beBytes 4 w.toNat := by
  have hlast : w.toUInt8 = UInt8.ofNat (w.toNat / 256 ^ 0) := by
    rw [Nat.pow_zero, Nat.div_one]
    rfl
  rw [wordBytes, wordByte_eq w 24 (by decide), wordByte_eq w 16 (by decide),
    wordByte_eq w 8 (by decide), hlast]
  rfl

theorem digest_eq (s : Sha256State) : s.digest = s.vars.bytes := by
  apply FixedBytes.ext
  simp [Sha256State.digest, Sha256State.vars, Fips.Vars.bytes, wordBytes_eq]

/-! ## Compression -/

theorem take_four {blk : List UInt8} {k : Nat} (h : k + 4 ≤ blk.length) :
    (blk.drop k).take 4 =
      [blk.getD k 0, blk.getD (k + 1) 0, blk.getD (k + 2) 0, blk.getD (k + 3) 0] := by
  have hcons : ∀ {j}, j < blk.length → blk.drop j = blk.getD j 0 :: blk.drop (j + 1) := by
    intro j hj
    rw [List.getD_eq_getElem?_getD, List.getElem?_eq_getElem hj]
    exact List.drop_eq_getElem_cons hj
  rw [hcons (show k < blk.length by omega), hcons (show k + 1 < blk.length by omega),
    hcons (show k + 1 + 1 < blk.length by omega), hcons (show k + 1 + 1 + 1 < blk.length by omega)]
  rfl

theorem shift_or_bytes {n0 n1 n2 n3 : Nat} (h1 : n1 < 256) (h2 : n2 < 256) (h3 : n3 < 256) :
    n0 <<< 24 ||| n1 <<< 16 ||| n2 <<< 8 ||| n3 =
      n0 * 2 ^ 24 + n1 * 2 ^ 16 + n2 * 2 ^ 8 + n3 := by
  rw [Nat.or_assoc, Nat.or_assoc, shiftLeft_or_eq (show n3 < 2 ^ 8 from h3),
    shiftLeft_or_eq (show n2 * 2 ^ 8 + n3 < 2 ^ 16 by omega),
    shiftLeft_or_eq (show n1 * 2 ^ 16 + (n2 * 2 ^ 8 + n3) < 2 ^ 24 by omega)]
  omega

/-- Four bytes as a word. -/
theorem toNat_word (b0 b1 b2 b3 : UInt8) :
    ((b0.toUInt32 <<< 24) ||| (b1.toUInt32 <<< 16) ||| (b2.toUInt32 <<< 8) ||| b3.toUInt32).toNat =
      beNat [b0, b1, b2, b3] := by
  have hshift : ∀ (b : UInt8) (n : UInt32), n.toNat ≤ 24 →
      (b.toUInt32 <<< n).toNat = b.toNat <<< n.toNat := by
    intro b n hn
    have hb := b.toNat_lt
    have hlt : b.toNat <<< n.toNat < 2 ^ 32 := by
      rw [Nat.shiftLeft_eq]
      calc b.toNat * 2 ^ n.toNat < 2 ^ 8 * 2 ^ n.toNat :=
            Nat.mul_lt_mul_of_pos_right hb (Nat.two_pow_pos _)
        _ ≤ 2 ^ 8 * 2 ^ 24 := Nat.mul_le_mul_left _ (Nat.pow_le_pow_right (by decide) hn)
        _ = 2 ^ 32 := by decide
    rw [UInt32.toNat_shiftLeft, UInt8.toNat_toUInt32, Nat.mod_eq_of_lt (show n.toNat < 32 by omega)]
    exact Nat.mod_eq_of_lt hlt
  rw [UInt32.toNat_or, UInt32.toNat_or, UInt32.toNat_or, hshift b0 24 (by decide),
    hshift b1 16 (by decide), hshift b2 8 (by decide), UInt8.toNat_toUInt32]
  show b0.toNat <<< 24 ||| b1.toNat <<< 16 ||| b2.toNat <<< 8 ||| b3.toNat = _
  rw [shift_or_bytes b1.toNat_lt b2.toNat_lt b3.toNat_lt]
  simp only [beNat, List.length_cons, List.length_nil]
  omega

theorem messageWord_eq {blk : List UInt8} (hblk : blk.length = 64) {i : Nat} (hi : i < 16) :
    messageWord blk i = ⟨Fips.scheduleWord blk i⟩ := by
  rw [Fips.scheduleWord, if_pos hi, take_four (by omega), Nat.mul_comm 4 i, messageWord]
  have hlt : ∀ {bs : List UInt8}, bs.length = 4 → beNat bs < 2 ^ 32 := by
    intro bs h
    exact Nat.lt_of_lt_of_eq (beNat_lt bs) (by rw [h]; decide)
  apply UInt32.toNat_inj.mp
  rw [toNat_word, ← UInt32.toNat_toBitVec, BitVec.toNat_ofNat, Nat.mod_eq_of_lt (hlt rfl)]

theorem getD_map_range {α : Type} {f : Nat → α} {n i : Nat} (h : i < n) (d : α) :
    ((List.range n).map f).getD i d = f i := by
  rw [List.getD_eq_getElem?_getD, List.getElem?_map, List.getElem?_range h]
  rfl

/-- The loop over `W` computes the recurrence. -/
theorem extendSchedule_map {blk : List UInt8} {n : Nat} (hn : 16 ≤ n) :
    extendSchedule ((List.range n).map fun t => ⟨Fips.scheduleWord blk t⟩) =
      (List.range (n + 1)).map fun t => ⟨Fips.scheduleWord blk t⟩ := by
  rw [extendSchedule, List.length_map, List.length_range, List.range_succ, List.map_append]
  rw [getD_map_range (by omega), getD_map_range (by omega), getD_map_range (by omega),
    getD_map_range (by omega), List.map_singleton]
  refine congrArg (_ ++ [·]) (UInt32.toBitVec_inj.mp ?_)
  simp only [UInt32.toBitVec_add, ssig0_eq, ssig1_eq]
  rw [Fips.scheduleWord.eq_1 blk n, if_neg (by omega)]

theorem schedule_eq {blk : List UInt8} (hblk : blk.length = 64) :
    schedule blk = (List.range 64).map fun t => ⟨Fips.scheduleWord blk t⟩ := by
  have hwords : (List.range 16).map (messageWord blk) =
      (List.range 16).map fun t => ⟨Fips.scheduleWord blk t⟩ :=
    List.map_congr_left fun i hi => messageWord_eq hblk (List.mem_range.mp hi)
  have hloop : ∀ n, extendSchedule^[n] ((List.range 16).map fun t => ⟨Fips.scheduleWord blk t⟩) =
      (List.range (16 + n)).map fun t => ⟨Fips.scheduleWord blk t⟩ := by
    intro n
    induction n with
    | zero => rfl
    | succ n ih =>
        rw [Function.iterate_succ_apply', ih, extendSchedule_map (Nat.le_add_right 16 n)]
        rfl
  rw [schedule, hwords, hloop]

/-- One round. -/
theorem round_vars {k w : UInt32} {blk : List UInt8} {t : Nat} (hk : k.toBitVec = Fips.k t)
    (hw : w.toBitVec = Fips.scheduleWord blk t) {v : Sha256State} {s : Fips.Vars}
    (hv : v.vars = Fips.working blk s t) :
    (round k w v).vars = Fips.working blk s (t + 1) := by
  rw [Fips.working, ← hv, ← hk, ← hw]
  simp only [round, Sha256State.vars, UInt32.toBitVec_add, bsig0_eq, bsig1_eq, ch_eq, maj_eq]

/-- The loop over the rounds. -/
theorem foldl_round_vars {blk : List UInt8} (hblk : blk.length = 64) (s : Sha256State) {n : Nat}
    (hn : n ≤ 64) :
    ((List.range n).foldl (fun v i => round (k256.getD i 0) ((schedule blk).getD i 0) v) s).vars =
      Fips.working blk s.vars n := by
  induction n with
  | zero => rfl
  | succ n ih =>
      rw [List.range_succ, List.foldl_append, List.foldl_cons, List.foldl_nil]
      refine round_vars (k256_eq hn) ?_ (ih (Nat.le_of_succ_le hn))
      rw [schedule_eq hblk, getD_map_range hn]

/-- `sha256_compress` is the compression function of the standard. -/
theorem sha256Compress_vars {blk : List UInt8} (hblk : blk.length = 64) (s : Sha256State) :
    (sha256Compress s blk).vars = Fips.compress s.vars blk := by
  rw [Fips.compress, ← foldl_round_vars hblk s (Nat.le_refl 64)]
  simp only [sha256Compress, Sha256State.vars, UInt32.toBitVec_add, BitVec.add_comm]

/-! ## Updates -/

/-- The context has been given `m`: its full blocks are folded into the state, the rest is in the
buffer, and its bits are counted. -/
structure Absorbed (ctx : Sha256Ctx) (m : List UInt8) : Prop where
  fold : foldBlocks sha256Compress 64 sha256Init.state m = (ctx.state, ctx.buffer)
  bitlen : ctx.bitlen = UInt64.ofNat (8 * m.length)

theorem absorbed_init : Absorbed sha256Init [] where
  fold := foldBlocks_of_lt (by decide) _
  bitlen := rfl

section
variable {ctx : Sha256Ctx} {m : List UInt8} (h : Absorbed ctx m)
include h

theorem Absorbed.length_buffer : ctx.buffer.length = m.length % 64 := by
  rw [← length_foldBlocks_rest (f := sha256Compress) (by decide) sha256Init.state m, h.fold]

/-- The blocks of a longer message start from the context. -/
theorem Absorbed.foldBlocks_append (data : List UInt8) :
    foldBlocks sha256Compress 64 sha256Init.state (m ++ data) =
      foldBlocks sha256Compress 64 ctx.state (ctx.buffer ++ data) := by
  rw [Napqes.foldBlocks_append (by decide), h.fold]

theorem Absorbed.bitlen_append (data : List UInt8) :
    ctx.bitlen + UInt64.ofNat data.length * 8 = UInt64.ofNat (8 * (m ++ data).length) := by
  rw [h.bitlen]
  apply UInt64.toNat_inj.mp
  simp only [UInt64.toNat_add, UInt64.toNat_mul, UInt64.toNat_ofNat', List.length_append]
  show (8 * m.length % 2 ^ 64 + data.length % 2 ^ 64 * 8 % 2 ^ 64) % 2 ^ 64 =
    8 * (m.length + data.length) % 2 ^ 64
  omega

/-- One update, in each of its cases. -/
theorem Absorbed.update (data : List UInt8) : Absorbed (sha256Update ctx data) (m ++ data) := by
  have hlen : ctx.buffer.length < 64 := by
    rw [h.length_buffer]
    exact Nat.mod_lt _ (by decide)
  have hbits := h.bitlen_append data
  rw [sha256Update]
  dsimp only
  split
  case isTrue hbuffer =>
    split
    case isTrue hneed =>
      rw [sha256BlockSize] at hneed
      -- the buffer does not become full
      have hshort : (ctx.buffer ++ data).length < 64 := by
        rw [List.length_append]
        omega
      exact ⟨by rw [h.foldBlocks_append, foldBlocks_of_lt hshort], hbits⟩
    case isFalse hneed =>
      rw [sha256BlockSize] at hneed
      -- the buffer becomes full, and is the first block
      have hblock : (ctx.buffer ++ data.take (64 - ctx.buffer.length)).length = 64 := by
        rw [List.length_append, List.length_take]
        omega
      have hsplit : ctx.buffer ++ data = (ctx.buffer ++ data.take (64 - ctx.buffer.length)) ++
          data.drop (64 - ctx.buffer.length) := by
        rw [List.append_assoc, List.take_append_drop]
      exact ⟨by rw [h.foldBlocks_append, hsplit, foldBlocks_block (by decide) hblock], hbits⟩
  case isFalse hbuffer =>
    have hnil : ctx.buffer = [] := List.length_eq_zero_iff.mp (by omega)
    exact ⟨by rw [h.foldBlocks_append, hnil]; rfl, hbits⟩

theorem Absorbed.updates (parts : List (List UInt8)) :
    Absorbed (parts.foldl sha256Update ctx) (m ++ parts.flatten) := by
  induction parts generalizing ctx m with
  | nil => rwa [List.flatten_nil, List.append_nil]
  | cons part parts ih =>
      rw [List.foldl_cons, List.flatten_cons, ← List.append_assoc]
      exact ih (h.update part)

end

/-! ## The last block -/

theorem bitlenByte_eq (bits i : UInt64) (hi : i.toNat < 8) :
    (bits >>> (i * 8)).toUInt8 = UInt8.ofNat (bits.toNat / 256 ^ i.toNat) := by
  have hshift : (i * 8).toNat = 8 * i.toNat := by
    rw [UInt64.toNat_mul, show (8 : UInt64).toNat = 8 from rfl, Nat.mul_comm]
    exact Nat.mod_eq_of_lt (by omega)
  apply UInt8.toNat_inj.mp
  rw [UInt64.toNat_toUInt8, UInt64.toNat_shiftRight, hshift, UInt8.toNat_ofNat',
    Nat.mod_eq_of_lt (show 8 * i.toNat < 64 by omega), Nat.shiftRight_eq_div_pow, Nat.pow_mul]

theorem bitlenBytes_eq (n : Nat) : bitlenBytes (UInt64.ofNat n) = beBytes 8 n := by
  have hword : ∀ bits : UInt64, bitlenBytes bits = beBytes 8 bits.toNat := by
    intro bits
    rw [bitlenBytes, List.map_congr_left (g := fun i => UInt8.ofNat (bits.toNat / 256 ^ i.toNat))]
    · rfl
    · intro i hi
      refine bitlenByte_eq bits i ?_
      fin_cases hi <;> decide
  rw [hword, UInt64.toNat_ofNat', beBytes_mod_word]

theorem length_zeroFill {n : Nat} {buffer : List UInt8} (h : buffer.length ≤ n) :
    (zeroFill n buffer).length = n := by
  rw [zeroFill, List.length_append, List.length_replicate]
  omega

/-- A single block. -/
theorem foldBlocks_single {b : List UInt8} (hb : b.length = 64) (s : Sha256State) :
    foldBlocks sha256Compress 64 s b = (sha256Compress s b, []) := by
  have h := foldBlocks_block (f := sha256Compress) (by decide) hb s []
  rw [List.append_nil] at h
  rw [h, foldBlocks_of_lt (by decide)]

/-- The rest of the message and the padding are one block, or two when the rest leaves no room for
the length. -/
theorem rest_append_padding {r : List UInt8} {len : Nat} (hr : r.length = len % 64) :
    r ++ (0x80 :: (List.replicate (Fips.padZeros len) 0 ++ beBytes 8 (8 * len))) =
      if (r ++ [0x80]).length > 56 then
        zeroFill 64 (r ++ [0x80]) ++ (zeroFill 56 [] ++ beBytes 8 (8 * len))
      else zeroFill 56 (r ++ [0x80]) ++ beBytes 8 (8 * len) := by
  have hlt : r.length < 64 := hr ▸ Nat.mod_lt _ (by decide)
  have hlen : (r ++ [0x80]).length = r.length + 1 := List.length_append
  rw [hlen, Fips.padZeros, ← hr, zeroFill, zeroFill, zeroFill, hlen]
  split
  case isTrue hlong =>
    have hzeros : (119 - r.length) % 64 =
        (64 - (r.length + 1)) + (56 - ([] : List UInt8).length) := by
      rw [List.length_nil]
      omega
    rw [hzeros, List.replicate_add]
    simp
  case isFalse hshort =>
    have hzeros : (119 - r.length) % 64 = 56 - (r.length + 1) := by omega
    rw [hzeros]
    simp

/-- `sha256_final` folds in the blocks of the rest and the padding. -/
theorem sha256Final_eq {ctx : Sha256Ctx} {m : List UInt8} (h : Absorbed ctx m) :
    sha256Final ctx =
      (foldBlocks sha256Compress 64 sha256Init.state (Fips.pad m)).1.digest := by
  have hlt : ctx.buffer.length < 64 := by
    rw [h.length_buffer]
    exact Nat.mod_lt _ (by decide)
  have hlen : (ctx.buffer ++ [0x80]).length = ctx.buffer.length + 1 := List.length_append
  rw [Fips.pad, h.foldBlocks_append, rest_append_padding h.length_buffer, sha256Final, h.bitlen,
    bitlenBytes_eq]
  dsimp only
  split
  case isTrue hlong =>
    rw [foldBlocks_block (by decide) (length_zeroFill (by omega)), foldBlocks_single]
    rw [List.length_append, length_zeroFill (by decide), length_beBytes]
  case isFalse hshort =>
    rw [foldBlocks_single]
    rw [List.length_append, length_zeroFill (by omega), length_beBytes]

/-- The digest of a context is that of the message it was given. -/
theorem sha256Final_of_absorbed {ctx : Sha256Ctx} {m : List UInt8} (h : Absorbed ctx m) :
    sha256Final ctx = Fips.digest m := by
  rw [sha256Final_eq h, digest_eq, Fips.digest, ← sha256Init_state,
    foldBlocks_map (by decide) Sha256State.vars (fun s _ hb => sha256Compress_vars hb s),
    foldBlocks_eq_foldl (by decide) (Fips.length_pad_mod m)]

theorem sha256_eq (data : List UInt8) : sha256 data = Fips.digest data :=
  sha256Final_of_absorbed (absorbed_init.update data)

/-! ## HMAC in pieces -/

/-- Only the concatenation of the pieces matters. -/
theorem hmacPieces_eq (k0 : List UInt8) (pieces : List (List UInt8)) :
    hmacPieces k0 pieces = hmacPieces k0 [pieces.flatten] := by
  have hinner : ∀ parts : List (List UInt8),
      sha256Final (parts.foldl sha256Update (sha256Update sha256Init (k0.map (· ^^^ 0x36)))) =
        Fips.digest (k0.map (· ^^^ 0x36) ++ parts.flatten) :=
    fun parts => sha256Final_of_absorbed ((absorbed_init.update _).updates parts)
  have hsingle : [pieces.flatten].flatten = pieces.flatten := by simp
  rw [hmacPieces, hmacPieces, hinner, hinner, hsingle]

theorem keyBlock_eq (key : List UInt8) : keyBlock key = Fips.keyBlock key := by
  rw [keyBlock, Fips.keyBlock, sha256_eq]
  simp only [sha256BlockSize, sha256DigestSize]
  by_cases hlong : key.length > 64
  · rw [if_pos hlong, if_neg (by omega), FixedBytes.length_toList]
  · rw [if_neg hlong, if_pos (by omega)]

/-- XOR of a block with one byte. -/
theorem map_xor_eq {n : Nat} {k0 : List UInt8} (hlen : k0.length = n) (b : UInt8) :
    k0.map (· ^^^ b) = xorBytes k0 (List.replicate n b) := by
  induction k0 generalizing n with
  | nil => rfl
  | cons a k0 ih =>
      rw [← hlen, List.length_cons, List.replicate_succ, List.map_cons, ih rfl]
      rfl

/-- `hmac_sha256` is the HMAC of the standard. -/
theorem hmacSha256_eq (key msg : List UInt8) : hmacSha256 key msg = Fips.hmac key msg := by
  have hlen := Fips.length_keyBlock key
  rw [hmacSha256, hmacPieces, Fips.hmac, keyBlock_eq, map_xor_eq hlen, map_xor_eq hlen]
  have hinner := sha256Final_of_absorbed
    ((absorbed_init.update (xorBytes (Fips.keyBlock key) (List.replicate 64 0x36))).updates [msg])
  have houter := fun inner => sha256Final_of_absorbed
    ((absorbed_init.update (xorBytes (Fips.keyBlock key) (List.replicate 64 0x5c))).update inner)
  simp only [List.nil_append, List.flatten_cons, List.flatten_nil, List.append_nil] at hinner houter
  rw [hinner, houter]

@[simp] theorem flatten_unlessEmpty (piece : List UInt8) : (unlessEmpty piece).flatten = piece := by
  rw [unlessEmpty]
  split
  case isTrue => simp
  case isFalse h => simp [List.length_eq_zero_iff.mp (by omega : piece.length = 0)]

theorem hmacPieces_keyBlock (key : List UInt8) (pieces : List (List UInt8)) :
    hmacPieces (keyBlock key) pieces = hmacSha256 key pieces.flatten := hmacPieces_eq _ _

/-- The model's `hmac_with_sep` at the HMAC of the port. -/
theorem hmacWithSepPieces_eq (kb nonce : List UInt8) (sep : UInt8) (tail : List UInt8) :
    hmacWithSepPieces kb nonce sep tail = hmacWithSep hmacSha256 kb nonce sep tail := by
  rw [hmacWithSepPieces, hmacPieces_keyBlock, hmacWithSep, List.flatten_append, flatten_unlessEmpty]
  simp

/-- The model's `compute_auth_tag` at the HMAC of the port. -/
theorem computeAuthTagPieces_eq (kb aad payload : List UInt8) (width : Nat) :
    computeAuthTagPieces kb aad payload width =
      computeAuthTag hmacSha256 kb aad payload width := by
  rw [computeAuthTagPieces, hmacPieces_keyBlock, computeAuthTag, List.flatten_append,
    List.flatten_append, flatten_unlessEmpty]
  simp

/-- The model's `synthetic_nonce` at the HMAC of the port. -/
theorem syntheticNoncePieces_eq (skFmt : FixedBytes sha256DigestSize) (aad message : List UInt8) :
    syntheticNoncePieces skFmt aad message =
      syntheticNonce hmacSha256 skFmt.toList aad message := by
  have hkey : keyBlock skFmt.toList =
      skFmt.toList ++ List.replicate (sha256BlockSize - sha256DigestSize) 0 := by
    rw [keyBlock, skFmt.length_toList, if_neg (by decide)]
  rw [syntheticNoncePieces, ← hkey, hmacPieces_keyBlock, syntheticNonce, List.flatten_append,
    List.flatten_append, flatten_unlessEmpty, flatten_unlessEmpty]
  simp

/-- However a message is cut into updates, the digest is that of FIPS 180-4, and every HMAC that is
fed in pieces is `hmac_sha256`, the HMAC of FIPS 198-1, of their concatenation, for keys of any
length. -/
theorem sha256_streaming :
    (∀ parts : List (List UInt8),
      sha256Final (parts.foldl sha256Update sha256Init) = Fips.digest parts.flatten) ∧
    (∀ key msg : List UInt8, hmacSha256 key msg = Fips.hmac key msg) ∧
    (∀ (kb nonce : List UInt8) (sep : UInt8) (tail : List UInt8),
      hmacWithSepPieces kb nonce sep tail = hmacSha256 kb (sep :: (nonce ++ tail))) ∧
    (∀ (kb aad payload : List UInt8) (width : Nat),
      computeAuthTagPieces kb aad payload width =
        hmacSha256 kb (0x03 :: (payload.take nonceSize ++
          (beLenPrefix aad.length width ++ (aad ++ payload.drop nonceSize))))) ∧
    ∀ (skFmt : FixedBytes sha256DigestSize) (aad message : List UInt8),
      (syntheticNoncePieces skFmt aad message).toList =
        (hmacSha256 skFmt.toList
          (0x0a :: (beLenPrefix aad.length aadLenWidthV8 ++ (aad ++ message)))).toList.take
            nonceSize := by
  refine ⟨?_, hmacSha256_eq, hmacWithSepPieces_eq, computeAuthTagPieces_eq, ?_⟩
  · intro parts
    exact sha256Final_of_absorbed (absorbed_init.updates parts)
  · intro skFmt aad message
    rw [syntheticNoncePieces_eq]
    rfl

/-- The digest that FIPS 180-4 gives for `abc`. -/
example : (sha256 [0x61, 0x62, 0x63]).toList = [
    0xba, 0x78, 0x16, 0xbf, 0x8f, 0x01, 0xcf, 0xea, 0x41, 0x41, 0x40, 0xde, 0x5d, 0xae, 0x22, 0x23,
    0xb0, 0x03, 0x61, 0xa3, 0x96, 0x17, 0x7a, 0x9c, 0xb4, 0x10, 0xff, 0x61, 0xf2, 0x00, 0x15,
    0xad] := by
  decide +kernel

end Napqes.C
