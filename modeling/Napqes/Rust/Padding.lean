import Napqes.Rust.Derive

/-!
# Padding profiles and the padded block (`rust/src/lib.rs:577-795`)

`PadProfile::block_size` maps a codepoint count to a block size `B`, `pad_to_block` builds
the `B + 2` padded codepoints and `unpad_message` reads the message back out of them.
-/

namespace Napqes.Rust

variable {ε : Type}

def padMinExp : Nat := 4
def padMaxExp : Nat := 16
def maxPlaintextCodepoints : Nat := 0xFFFF

/-- `PadProfile` (`lib.rs:622-633`). -/
inductive PadProfile where
  | bucket
  | coarse (g : UInt32)
  | frame (f : UInt32)
  deriving DecidableEq, Repr

/-- `bit_length` (`lib.rs:635-637`): `usize::BITS - n.leading_zeros()`. -/
def bitLength (n : Nat) : Nat := if n = 0 then 0 else n.log2 + 1

/-- `u32::trailing_zeros` / `u64::trailing_zeros` at `w` bits. -/
def trailingZeros (w n : Nat) : Nat := ((List.range w).find? fun i => n.testBit i).getD w

/-- `bucket_block_size` (`lib.rs:641-643`). -/
def bucketBlockSize (n : Nat) : Nat := 1 <<< max (bitLength n) padMinExp

/-- `PadProfile::block_size` (`lib.rs:647-701`). -/
def PadProfile.blockSize (profile : PadProfile) (n : Nat) : RustM String Nat :=
  if n ≥ 1 <<< padMaxExp then
    err (s!"message of {n} codepoints exceeds the maximum bucket 2^{padMaxExp} (CVF-31); " ++
      "pad_profile.block_size cannot produce a value in the normative reachable set.")
  else
    let e := max (bitLength n) padMinExp
    match profile with
    | .bucket => .ok (bucketBlockSize n)
    | .coarse g =>
        let g := g.toNat
        let span := padMaxExp - padMinExp
        if g = 0 ∨ span % g ≠ 0 then err s!"coarse stride g={g} must divide {span}."
        else
          let steps := (e - padMinExp + g - 1) / g
          .ok (1 <<< (padMinExp + g * steps))
    | .frame f =>
        let f := f.toNat
        let lo := 1 <<< padMinExp
        let hi := 1 <<< padMaxExp
        let most := f - 1
        if ¬ f.isPowerOfTwo ∨ trailingZeros 32 f < padMinExp ∨ trailingZeros 32 f > padMaxExp then
          err s!"frame size F={f} must be a power of two in [{lo}, {hi}]."
        else if n ≥ f then
          err (s!"frame({f}) profile admits messages of at most {most} codepoints; " ++
            s!"got {n}. Use a larger frame.")
        else .ok f

/-- `pad_to_block` (`lib.rs:714-736`). -/
def padToBlock (H : Hmac) (msg : List Nat) (kb nonce : List UInt8) (blockSize : Nat) :
    RustM ε (List Nat) :=
  let n := msg.length
  if blockSize > n then
    .ok ([(n >>> 8) &&& 0xFF, n &&& 0xFF] ++ msg ++
      (List.range (blockSize - n)).map (derivePadChar H kb nonce))
  else panics "padding block must exceed the message"

/-- `unpad_message` (`lib.rs:769-795`). -/
def unpadMessage : List Nat → RustM String (List Nat)
  | hi :: lo :: rest =>
      if hi > 0xFF ∨ lo > 0xFF then
        err (s!"Malformed length prefix: codepoints ({hi}, {lo}) are not byte-valued " ++
          "(CVF-43).")
      else
        let n := (hi <<< 8) ||| lo
        let available := rest.length
        if 2 + n > rest.length + 2 then
          err s!"Length prefix ({n}) exceeds available data ({available} codepoints)."
        else .ok (rest.take n)
  | _ => err "Padded message too short to contain length prefix."

/-! ## Block sizes -/

theorem lt_two_pow_bitLength (n : Nat) : n < 2 ^ bitLength n := by
  unfold bitLength
  split
  case isTrue h => simp [h]
  case isFalse h => exact Nat.lt_log2_self

theorem bitLength_le {n k : Nat} (h : n < 2 ^ k) : bitLength n ≤ k := by
  unfold bitLength
  split
  case isTrue => exact Nat.zero_le k
  case isFalse hn => exact (Nat.log2_lt hn).mpr h

theorem trailingZeros_two_pow {w e : Nat} (h : e < w) : trailingZeros w (2 ^ e) = e := by
  have hfind : (List.range w).find? (fun i => (2 ^ e).testBit i) = some e := by
    rw [List.find?_range_eq_some]
    refine ⟨by simp [Nat.testBit_two_pow_self], by simpa using h, ?_⟩
    intro j hj
    simp [Nat.ne_of_gt hj]
  rw [trailingZeros, hfind, Option.getD_some]

/-- The reachable block sizes `2^4, ..., 2^16`. -/
def ReachableBlock (b : Nat) : Prop := ∃ e, padMinExp ≤ e ∧ e ≤ padMaxExp ∧ b = 2 ^ e

theorem trailingZeros_two_pow_of_le {w e : Nat} (h : w ≤ e) : trailingZeros w (2 ^ e) = w := by
  have hfind : (List.range w).find? (fun i => (2 ^ e).testBit i) = none := by
    rw [List.find?_eq_none]
    intro i hi
    have : i < w := List.mem_range.mp hi
    simp only [Nat.testBit_two_pow, decide_eq_true_eq]
    omega
  rw [trailingZeros, hfind, Option.getD_none]

/-- The test the decoders make on a recovered block size, for words of `w` bits. -/
theorem reachableBlock_iff {w : Nat} (b : Nat) (hw : padMaxExp < w) :
    (b.isPowerOfTwo ∧ padMinExp ≤ trailingZeros w b ∧ trailingZeros w b ≤ padMaxExp) ↔
      ReachableBlock b := by
  constructor
  · rintro ⟨⟨e, rfl⟩, hlo, hhi⟩
    by_cases he : e < w
    · rw [trailingZeros_two_pow he] at hlo hhi
      exact ⟨e, hlo, hhi, rfl⟩
    · rw [trailingZeros_two_pow_of_le (Nat.le_of_not_lt he)] at hhi
      omega
  · rintro ⟨e, hlo, hhi, rfl⟩
    have he : e < w := by omega
    rw [trailingZeros_two_pow he]
    exact ⟨⟨e, rfl⟩, hlo, hhi⟩

/-- The frame profile takes the messages shorter than a reachable frame. -/
theorem blockSize_frame_eq_ok_iff (f : UInt32) (n b : Nat) :
    (PadProfile.frame f).blockSize n = .ok b ↔
      n < 2 ^ padMaxExp ∧ ReachableBlock f.toNat ∧ n < f.toNat ∧ b = f.toNat := by
  have htest := reachableBlock_iff (w := 32) f.toNat (by decide)
  have hmax : (1 <<< padMaxExp : Nat) = 2 ^ padMaxExp := by rw [Nat.shiftLeft_eq, Nat.one_mul]
  unfold PadProfile.blockSize
  rw [hmax]
  by_cases hn : n < 2 ^ padMaxExp
  · rw [if_neg (Nat.not_le.mpr hn)]
    simp only
    by_cases hf : ReachableBlock f.toNat
    · obtain ⟨hpow, hlo, hhi⟩ := htest.mpr hf
      have hok : ¬ (¬ f.toNat.isPowerOfTwo ∨ trailingZeros 32 f.toNat < padMinExp ∨
          trailingZeros 32 f.toNat > padMaxExp) := by
        rintro (h | h | h)
        · exact h hpow
        · omega
        · omega
      rw [if_neg hok]
      by_cases hlong : n < f.toNat
      · rw [if_neg (Nat.not_le.mpr hlong)]
        simp [hn, hf, hlong, eq_comm]
      · rw [if_pos (Nat.le_of_not_lt hlong)]
        simp [hlong, err]
    · have hbad : ¬ f.toNat.isPowerOfTwo ∨ trailingZeros 32 f.toNat < padMinExp ∨
          trailingZeros 32 f.toNat > padMaxExp := by
        by_contra hok
        simp only [not_or, Decidable.not_not] at hok
        exact hf (htest.mp ⟨hok.1, by omega, by omega⟩)
      rw [if_pos hbad]
      simp [hf, err]
  · rw [if_pos (Nat.le_of_not_lt hn)]
    simp [hn, err]

/-- A block size the profile accepts is reachable and exceeds the message length. -/
theorem blockSize_spec {profile : PadProfile} {n b : Nat}
    (h : profile.blockSize n = .ok b) : ReachableBlock b ∧ n < b ∧ n < 2 ^ padMaxExp := by
  have hframe := h
  unfold PadProfile.blockSize at h
  split at h
  case isTrue => simp [err] at h
  case isFalse hn =>
    have hn' : n < 2 ^ padMaxExp := by simpa [Nat.shiftLeft_eq] using hn
    have he : bitLength n ≤ padMaxExp := bitLength_le hn'
    have hlt : n < 2 ^ max (bitLength n) padMinExp :=
      Nat.lt_of_lt_of_le (lt_two_pow_bitLength n)
        (Nat.pow_le_pow_right (by decide) (Nat.le_max_left _ _))
    cases profile with
    | bucket =>
        simp only [bucketBlockSize, Nat.shiftLeft_eq, Nat.one_mul, Except.ok.injEq] at h
        subst h
        exact ⟨⟨_, Nat.le_max_right _ _, Nat.max_le.mpr ⟨he, by decide⟩, rfl⟩, hlt, hn'⟩
    | coarse g =>
        simp only at h
        split at h
        case isTrue => simp [err] at h
        case isFalse hg =>
          simp only [not_or, Decidable.not_not, Nat.shiftLeft_eq, Nat.one_mul,
            Except.ok.injEq] at hg h
          subst h
          obtain ⟨hg0, hdvd⟩ := hg
          have hspan : g.toNat ∣ padMaxExp - padMinExp := Nat.dvd_of_mod_eq_zero hdvd
          obtain ⟨q, hq⟩ := hspan
          have hgpos : 0 < g.toNat := Nat.pos_of_ne_zero hg0
          -- `steps` is the ceiling of `(e - 4) / g`, at most `12 / g`.
          have hlow : max (bitLength n) padMinExp - padMinExp ≤
              g.toNat * ((max (bitLength n) padMinExp - padMinExp + g.toNat - 1) / g.toNat) := by
            have := Nat.lt_mul_div_succ
              (max (bitLength n) padMinExp - padMinExp + g.toNat - 1) hgpos
            rw [Nat.mul_add] at this
            omega
          have hhigh : (max (bitLength n) padMinExp - padMinExp + g.toNat - 1) / g.toNat ≤ q := by
            apply Nat.le_of_lt_succ
            rw [Nat.div_lt_iff_lt_mul hgpos, Nat.succ_mul, Nat.mul_comm q, ← hq]
            simp only [padMaxExp, padMinExp] at he ⊢
            omega
          have hmul := Nat.mul_le_mul_left g.toNat hhigh
          rw [← hq] at hmul
          refine ⟨⟨_, Nat.le_add_right _ _, ?_, rfl⟩, ?_, hn'⟩
          · simp only [padMaxExp, padMinExp] at hmul ⊢
            omega
          · refine Nat.lt_of_lt_of_le hlt (Nat.pow_le_pow_right (by decide) ?_)
            omega
    | frame f =>
        obtain ⟨-, hf, hnf, rfl⟩ := (blockSize_frame_eq_ok_iff f n b).mp hframe
        exact ⟨hf, hnf, hn'⟩

theorem ReachableBlock.le {b : Nat} (h : ReachableBlock b) : b ≤ 65536 := by
  obtain ⟨e, -, he, rfl⟩ := h
  exact Nat.pow_le_pow_right (by decide) he

/-! ## Padding and unpadding -/

/-- The padded codepoints of a message that fits its block. -/
def padded (H : Hmac) (msg : List Nat) (kb nonce : List UInt8) (blockSize : Nat) : List Nat :=
  [(msg.length >>> 8) &&& 0xFF, msg.length &&& 0xFF] ++ msg ++
    (List.range (blockSize - msg.length)).map (derivePadChar H kb nonce)

theorem padToBlock_eq_ok (H : Hmac) {msg : List Nat} (kb nonce : List UInt8) {blockSize : Nat}
    (h : msg.length < blockSize) :
    (padToBlock H msg kb nonce blockSize : RustM ε (List Nat)) =
      .ok (padded H msg kb nonce blockSize) :=
  if_pos h

theorem length_padded (H : Hmac) {msg : List Nat} (kb nonce : List UInt8) {blockSize : Nat}
    (h : msg.length < blockSize) : (padded H msg kb nonce blockSize).length = blockSize + 2 := by
  simp only [padded, List.length_append, List.length_cons, List.length_nil, List.length_map,
    List.length_range]
  omega

/-- The two length codepoints denote the message length. -/
theorem lengthPrefix_eq {n : Nat} (h : n ≤ maxPlaintextCodepoints) :
    (((n >>> 8) &&& 0xFF) <<< 8) ||| (n &&& 0xFF) = n := by
  have hlo : n &&& 0xFF = n % 2 ^ 8 := Nat.and_two_pow_sub_one_eq_mod n 8
  have hhi : (n >>> 8) &&& 0xFF = n / 2 ^ 8 := by
    rw [show (0xFF : Nat) = 2 ^ 8 - 1 from rfl, Nat.and_two_pow_sub_one_eq_mod,
      Nat.shiftRight_eq_div_pow]
    apply Nat.mod_eq_of_lt
    simp only [maxPlaintextCodepoints] at h
    omega
  rw [hlo, hhi, shiftLeft_or_eq (Nat.mod_lt _ (by decide))]
  omega

/-- Unpadding a padded block gives the message. -/
theorem unpadMessage_padded (H : Hmac) {msg : List Nat} (kb nonce : List UInt8) (blockSize : Nat)
    (h : msg.length ≤ maxPlaintextCodepoints) :
    unpadMessage (padded H msg kb nonce blockSize) = .ok msg := by
  have hbyte : ∀ m : Nat, ¬ (m &&& 0xFF > 0xFF) := by
    intro m
    have := Nat.and_le_right (n := m) (m := 0xFF)
    omega
  simp only [padded, List.cons_append, List.nil_append, unpadMessage, lengthPrefix_eq h]
  rw [if_neg (by simp [hbyte]), if_neg (by simp; omega)]
  simp

theorem lengthPrefix_lt {hi lo : Nat} (h : ¬ (hi > 0xFF ∨ lo > 0xFF)) :
    (hi <<< 8) ||| lo < 2 ^ 16 := by
  apply Nat.or_lt_two_pow
  · rw [Nat.shiftLeft_eq]
    omega
  · omega

/-- What unpadding accepts: a length of two bytes and as many codepoints behind it. -/
theorem unpadMessage_eq_ok {cps out : List Nat} (h : unpadMessage cps = .ok out) :
    ∃ hi lo rest, cps = hi :: lo :: rest ∧ ¬ (hi > 0xFF ∨ lo > 0xFF) ∧
      (hi <<< 8) ||| lo ≤ rest.length ∧ out = rest.take ((hi <<< 8) ||| lo) := by
  unfold unpadMessage at h
  split at h
  case h_1 hi lo rest =>
    split at h
    case isTrue => simp [err] at h
    case isFalse hbytes =>
      simp only at h
      split at h
      case isTrue => simp [err] at h
      case isFalse hfits => exact ⟨hi, lo, rest, rfl, hbytes, by omega, (Except.ok.inj h).symm⟩
  case h_2 => simp [err] at h

/-- A message fits in two length bytes and behind them. -/
theorem length_of_unpadMessage {cps out : List Nat} (h : unpadMessage cps = .ok out) :
    out.length ≤ maxPlaintextCodepoints ∧ out.length + 2 ≤ cps.length := by
  obtain ⟨hi, lo, rest, rfl, hbytes, hfits, rfl⟩ := unpadMessage_eq_ok h
  have hword := lengthPrefix_lt hbytes
  rw [List.length_take, Nat.min_eq_left hfits, maxPlaintextCodepoints, List.length_cons,
    List.length_cons]
  omega

/-- Unpadding adds no codepoint. -/
theorem mem_of_unpadMessage {cps out : List Nat} (h : unpadMessage cps = .ok out) :
    ∀ c ∈ out, c ∈ cps := by
  obtain ⟨hi, lo, rest, rfl, -, -, rfl⟩ := unpadMessage_eq_ok h
  intro c hc
  exact List.mem_cons_of_mem _ (List.mem_cons_of_mem _ (List.mem_of_mem_take hc))

/-- Every codepoint of a padded message of scalar values is a scalar value. -/
theorem isScalar_of_mem_padded (H : Hmac) {msg : List Nat} (kb nonce : List UInt8)
    (blockSize : Nat) (h : ∀ c ∈ msg, IsScalar c) :
    ∀ c ∈ padded H msg kb nonce blockSize, IsScalar c := by
  have hsmall : ∀ c < 256, IsScalar c := fun c hc => ⟨by omega, by omega⟩
  have hbyte : ∀ m : Nat, m &&& 0xFF < 256 := fun m =>
    Nat.lt_of_le_of_lt Nat.and_le_right (by decide)
  intro c hc
  simp only [padded, List.mem_append, List.mem_cons, List.not_mem_nil, or_false, List.mem_map,
    List.mem_range] at hc
  rcases hc with ((rfl | rfl) | hc) | ⟨i, -, rfl⟩
  · exact hsmall _ (hbyte _)
  · exact hsmall _ (hbyte _)
  · exact h c hc
  · exact hsmall _ (Nat.lt_trans (derivePadChar_lt H kb nonce i) (by decide))

end Napqes.Rust
