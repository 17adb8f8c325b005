import Napqes.Misc.Crc
import Napqes.Rust.Proofs.Protocols

/-!
# The CRC of DNP3 headers (`rust/src/protocols/dnp3.rs:33-65, 122-126`)

`crc16_dnp` looks eight steps up at a time. It is the reflected check of sixteen bits under 0xA6BC,
register 0 at the start, complemented at the end; the highest bit of 0xA6BC is set, so a changed
byte changes the check, and `extract_payload` refuses a header with a bit flipped.
-/

namespace Napqes.Rust.Dnp3

/-- The check bit by bit: each byte goes into the low byte of the register, which then makes eight
steps; the complement of the register is the check. -/
def crc16Bitwise (data : List UInt8) : UInt16 :=
  ~~~ UInt16.ofBitVec (Crc.register 0xA6BC#16 0#16 (data.map UInt8.toBitVec))

/-- `buf` with bit number `bit` of byte number `i` flipped. -/
def flipBit (buf : List UInt8) (i bit : Nat) : List UInt8 :=
  buf.modify i fun b => b ^^^ UInt8.ofNat (2 ^ bit)

/-! ## The table -/

theorem crcShift_toBitVec (crc : UInt16) :
    (crcShift crc).toBitVec = Crc.step 0xA6BC#16 crc.toBitVec := by
  have hlow : (crc &&& 0x0001).toBitVec =
      BitVec.setWidth 16 (BitVec.ofBool (crc.toBitVec.getLsbD 0)) :=
    BitVec.and_one_eq_setWidth_ofBool_getLsbD
  rw [crcShift, Crc.step]
  cases hbit : crc.toBitVec.getLsbD 0 with
  | true =>
      have hodd : crc &&& 0x0001 ≠ 0 := by
        intro hzero
        rw [hbit, hzero] at hlow
        exact absurd hlow (by decide)
      rw [if_pos hodd]
      rfl
  | false =>
      have heven : ¬ crc &&& 0x0001 ≠ 0 := by
        rw [hbit] at hlow
        exact not_not_intro (UInt16.toBitVec_inj.mp (hlow.trans (by decide)))
      rw [if_neg heven, if_neg Bool.false_ne_true, BitVec.xor_zero]
      rfl

theorem iterate_crcShift_toBitVec (n : Nat) (crc : UInt16) :
    (Nat.iterate crcShift n crc).toBitVec = Crc.steps 0xA6BC#16 n crc.toBitVec := by
  induction n generalizing crc with
  | zero => rfl
  | succ n ih =>
      show (Nat.iterate crcShift n (crcShift crc)).toBitVec = _
      rw [ih, crcShift_toBitVec]
      rfl

/-- The table holds the eight steps of each byte. -/
theorem crcTable_getD (i : UInt8) :
    (crcTable.getD i.toNat 0).toBitVec = Crc.tableEntry 0xA6BC#16 i.toBitVec := by
  have hi := i.toNat_lt
  have hget : crcTable.getD i.toNat 0 = Nat.iterate crcShift 8 (UInt16.ofNat i.toNat) := by
    rw [crcTable, List.getD_eq_getElem?_getD, List.getElem?_map,
      List.getElem?_range (by omega)]
    rfl
  have hwide : (UInt16.ofNat i.toNat).toBitVec = i.toBitVec.setWidth 16 := by
    apply BitVec.eq_of_toNat_eq
    rw [BitVec.toNat_setWidth]
    rfl
  rw [hget, iterate_crcShift_toBitVec, Crc.tableEntry, hwide]

/-- The body of the loop of `crc16_dnp`. -/
def crcLookup (crc : UInt16) (b : UInt8) : UInt16 :=
  let idx := ((crc ^^^ b.toUInt16) &&& 0xFF).toNat
  (crc >>> 8) ^^^ crcTable.getD idx 0

/-- One byte of `crc16_dnp`. -/
theorem crcLookup_toBitVec (crc : UInt16) (b : UInt8) :
    (crcLookup crc b).toBitVec = Crc.feed 0xA6BC#16 crc.toBitVec b.toBitVec := by
  have hidx : ((crc ^^^ b.toUInt16) &&& 0xFF).toNat = (crc ^^^ b.toUInt16).toUInt8.toNat := by
    rw [UInt16.toNat_and, UInt16.toNat_toUInt8]
    exact Nat.and_two_pow_sub_one_eq_mod _ 8
  rw [crcLookup, Crc.feed_eq, hidx, UInt16.toBitVec_xor, crcTable_getD]
  rfl

theorem crc16Dnp_eq (data : List UInt8) : crc16Dnp data = crc16Bitwise data := by
  have hfold : ∀ crc : UInt16, (data.foldl crcLookup crc).toBitVec =
      Crc.register 0xA6BC#16 crc.toBitVec (data.map UInt8.toBitVec) := by
    induction data with
    | nil => exact fun crc => rfl
    | cons b data ih =>
        intro crc
        rw [List.foldl_cons, ih, crcLookup_toBitVec]
        rfl
  have hzero := hfold 0
  rw [crc16Dnp, crc16Bitwise]
  congr 1
  exact UInt16.toBitVec_inj.mp hzero

/-- The check value of CRC-16/DNP. -/
example : crc16Dnp ("123456789".toList.map fun c => UInt8.ofNat c.toNat) = 0xEA82 := by
  decide +kernel

/-! ## Flipped bits -/

theorem flipped_ne {bit : Nat} (hbit : bit < 8) (b : UInt8) : b ^^^ UInt8.ofNat (2 ^ bit) ≠ b := by
  have hmask : ∀ n < 8, UInt8.ofNat (2 ^ n) ≠ 0 := by decide
  intro h
  apply hmask bit hbit
  rw [← @UInt8.xor_zero b, UInt8.xor_assoc, UInt8.xor_right_inj, UInt8.zero_xor] at h
  exact h

/-- A flipped bit splits a byte string at its byte. -/
theorem exists_flipBit {buf : List UInt8} {i : Nat} (hi : i < buf.length) (bit : Nat) :
    ∃ front b back, buf = front ++ b :: back ∧ front.length = i ∧
      flipBit buf i bit = front ++ (b ^^^ UInt8.ofNat (2 ^ bit)) :: back :=
  List.exists_of_modify _ hi

theorem crc16Dnp_ne (front back : List UInt8) {b c : UInt8} (hne : b ≠ c) :
    crc16Dnp (front ++ b :: back) ≠ crc16Dnp (front ++ c :: back) := by
  rw [crc16Dnp_eq, crc16Dnp_eq, crc16Bitwise, crc16Bitwise]
  intro h
  have hregister := congrArg UInt16.toBitVec (UInt16.not_inj.mp h)
  rw [List.map_append, List.map_append, List.map_cons, List.map_cons] at hregister
  exact Crc.register_ne (by decide) (by decide) (fun heq => hne (UInt8.toBitVec_inj.mp heq)) _ _
    hregister

theorem crc16Dnp_flipBit {data : List UInt8} {i bit : Nat} (hi : i < data.length) (hbit : bit < 8) :
    crc16Dnp (flipBit data i bit) ≠ crc16Dnp data := by
  obtain ⟨front, b, back, rfl, -, hflip⟩ := exists_flipBit hi bit
  rw [hflip]
  exact crc16Dnp_ne front back (flipped_ne hbit b)

/-- The six bytes under the check, split at one of them. -/
theorem headerBytes_split {front back : List UInt8} {b : UInt8} (hlow : 2 ≤ front.length)
    (hhigh : front.length < 8) :
    ((front ++ b :: back).drop 2).take 6 = front.drop 2 ++ b :: back.take (7 - front.length) := by
  have hlen : (front.drop 2).length = front.length - 2 := List.length_drop
  rw [List.drop_append_of_le_length hlow, List.take_append, List.take_of_length_le (by omega), hlen,
    show 6 - (front.length - 2) = 7 - front.length + 1 by omega, List.take_succ_cons]

/-- A change in one of the six bytes leaves the stored check as it is. -/
theorem u16FromLe_split {front back : List UInt8} (hhigh : front.length < 8) (b c : UInt8) :
    u16FromLe (front ++ b :: back) 8 = u16FromLe (front ++ c :: back) 8 := by
  have hskip : ∀ d : UInt8, (front ++ d :: back).drop 8 = back.drop (7 - front.length) := by
    intro d
    rw [List.drop_append, List.drop_of_length_le (by omega), List.nil_append,
      show 8 - front.length = 7 - front.length + 1 by omega, List.drop_succ_cons]
  rw [u16FromLe, u16FromLe, hskip b, hskip c]

theorem extractPayload_of_crc_ne {buf : List UInt8} (hlen : dllHeaderSize ≤ buf.length)
    (hstart : buf.take 2 = dnp3StartBytes)
    (hcrc : crc16Dnp ((buf.drop 2).take 6) ≠ u16FromLe buf 8) :
    extractPayload buf =
      err (.headerCrcMismatch (crc16Dnp ((buf.drop 2).take 6)) (u16FromLe buf 8)) := by
  unfold extractPayload
  rw [if_neg (Nat.not_lt.mpr hlen), if_neg (not_not.mpr hstart)]
  exact if_pos hcrc

theorem extractPayload_flipBit {buf : List UInt8} (h : HeaderValid buf) {i bit : Nat} (hlow : 2 ≤ i)
    (hhigh : i < 8) (hbit : bit < 8) :
    extractPayload (flipBit buf i bit) =
      err (.headerCrcMismatch (crc16Dnp (((flipBit buf i bit).drop 2).take 6))
        (u16FromLe buf 8)) := by
  obtain ⟨hlen, hstart, hcrc⟩ := h
  rw [dllHeaderSize] at hlen
  obtain ⟨front, b, back, rfl, rfl, hflip⟩ := exists_flipBit (show i < buf.length by omega) bit
  have hne := crc16Dnp_ne (front.drop 2) (back.take (7 - front.length)) (flipped_ne hbit b)
  rw [← headerBytes_split hlow hhigh, ← headerBytes_split hlow hhigh, hcrc] at hne
  rw [u16FromLe_split hhigh b (b ^^^ UInt8.ofNat (2 ^ bit))] at hne
  rw [hflip, u16FromLe_split hhigh b (b ^^^ UInt8.ofNat (2 ^ bit))]
  apply extractPayload_of_crc_ne
  · rw [dllHeaderSize]
    simpa using hlen
  · rw [List.take_append_of_le_length hlow] at hstart ⊢
    exact hstart
  · exact hne

/-! ## Main result -/

/-- The table computes the check bit by bit. A flipped bit changes the check of any byte string,
and a buffer that passes the header test does not pass it with a bit of its six header bytes
flipped. -/
theorem crc_table_detects_flips :
    (∀ data : List UInt8, crc16Dnp data = crc16Bitwise data) ∧
    (∀ (data : List UInt8) (i bit : Nat), i < data.length → bit < 8 →
      crc16Dnp (flipBit data i bit) ≠ crc16Dnp data) ∧
    ∀ (buf : List UInt8) (i bit : Nat), HeaderValid buf → 2 ≤ i → i < 8 → bit < 8 →
      extractPayload (flipBit buf i bit) =
        err (.headerCrcMismatch (crc16Dnp (((flipBit buf i bit).drop 2).take 6))
          (u16FromLe buf 8)) :=
  ⟨crc16Dnp_eq, fun _ _ _ hi hbit => crc16Dnp_flipBit hi hbit,
    fun _ _ _ h hlow hhigh hbit => extractPayload_flipBit h hlow hhigh hbit⟩

/-- A header without payload, and the same with the lowest bit of its destination flipped. -/
theorem crc_table_detects_flip_in_destination :
    extractPayload [0x05, 0x64, 0x05, 0xC4, 0x01, 0x00, 0x03, 0x00, 0xE3, 0xA8] =
        .ok (⟨0x05, 0xC4, 0x01, 0x03, 0xA8E3⟩, []) ∧
      extractPayload [0x05, 0x64, 0x05, 0xC4, 0x00, 0x00, 0x03, 0x00, 0xE3, 0xA8] =
        err (.headerCrcMismatch 0x6A0B 0xA8E3) := by
  have hvalid : HeaderValid [0x05, 0x64, 0x05, 0xC4, 0x01, 0x00, 0x03, 0x00, 0xE3, 0xA8] := by
    decide +kernel
  have hflip := crc_table_detects_flips.2.2 _ 4 0 hvalid (by decide) (by decide) (by decide)
  refine ⟨by decide +kernel, ?_⟩
  rw [show flipBit [0x05, 0x64, 0x05, 0xC4, 0x01, 0x00, 0x03, 0x00, 0xE3, 0xA8] 4 0 =
    [0x05, 0x64, 0x05, 0xC4, 0x00, 0x00, 0x03, 0x00, 0xE3, 0xA8] by decide] at hflip
  rw [hflip]
  decide +kernel

end Napqes.Rust.Dnp3
