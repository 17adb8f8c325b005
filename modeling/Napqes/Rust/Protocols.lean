import Napqes.Rust.Basic

/-!
# Modbus TCP and DNP3 framing (`rust/src/protocols/modbus.rs`, `rust/src/protocols/dnp3.rs`)

The extractors the ingress runs on what it reads, and the functions that build a frame again.
Header fields keep the width of the source; a range of a buffer that the source takes without a
check of its own panics where the range is not one.
-/

namespace Napqes.Rust

/-! ## Modbus TCP -/

namespace Modbus

def mbapHeaderSize : Nat := 7
def modbusProtocolId : UInt16 := 0x0000

/-- `MbapHeader` (`modbus.rs:22-26`). -/
structure MbapHeader where
  transactionId : UInt16
  length : UInt16
  unitId : UInt8
  deriving DecidableEq, Repr

/-- `ModbusError` (`modbus.rs:29-33`). -/
inductive ModbusError where
  | tooShort (have_ need : Nat)
  | badProtocolId (pid : UInt16)
  | lengthMismatch (declared available : Nat)
  deriving DecidableEq, Repr

/-- `u16::from_be_bytes` of the two bytes at an offset. -/
def u16FromBe (buf : List UInt8) (offset : Nat) : UInt16 :=
  UInt16.ofNat (beNat ((buf.drop offset).take 2))

/-- `extract_pdu` (`modbus.rs:52-79`). -/
def extractPdu (buf : List UInt8) : RustM ModbusError (MbapHeader × List UInt8) :=
  if buf.length < mbapHeaderSize then err (.tooShort buf.length mbapHeaderSize)
  else
    let transactionId := u16FromBe buf 0
    let protocolId := u16FromBe buf 2
    let length := u16FromBe buf 4
    let unitId := buf.getD 6 0
    if protocolId ≠ modbusProtocolId then err (.badProtocolId protocolId)
    else
      let declaredRemaining := length.toNat
      let availableRemaining := buf.length - 6
      if availableRemaining < declaredRemaining then
        err (.lengthMismatch declaredRemaining availableRemaining)
      else
        let header := { transactionId, length, unitId }
        let pdu := (buf.drop 6).take declaredRemaining
        .ok (header, pdu)

/-- `reconstruct` (`modbus.rs:86-94`). -/
def reconstruct (header : MbapHeader) (pdu : List UInt8) : List UInt8 :=
  let length := UInt16.ofNat pdu.length
  beBytes 2 header.transactionId.toNat ++ (beBytes 2 modbusProtocolId.toNat ++
    (beBytes 2 length.toNat ++ pdu))

end Modbus

/-! ## DNP3 -/

namespace Dnp3

def dnp3StartBytes : List UInt8 := [0x05, 0x64]
def dllHeaderSize : Nat := 10

/-- One round of the inner loop of `precompute_crc_table` (`dnp3.rs:44-50`). -/
def crcShift (crc : UInt16) : UInt16 :=
  if crc &&& 0x0001 ≠ 0 then (crc >>> 1) ^^^ 0xA6BC else crc >>> 1

/-- `precompute_crc_table` (`dnp3.rs:36-55`). -/
def crcTable : List UInt16 :=
  (List.range 256).map fun i => Nat.iterate crcShift 8 (UInt16.ofNat i)

/-- `crc16_dnp` (`dnp3.rs:58-65`). -/
def crc16Dnp (data : List UInt8) : UInt16 :=
  ~~~(data.foldl (fun crc b =>
    let idx := ((crc ^^^ b.toUInt16) &&& 0xFF).toNat
    (crc >>> 8) ^^^ crcTable.getD idx 0) 0x0000)

/-- `DnpHeader` (`dnp3.rs:68-74`). -/
structure DnpHeader where
  length : UInt8
  control : UInt8
  destination : UInt16
  source : UInt16
  crcHeader : UInt16
  deriving DecidableEq, Repr

/-- `DnpError` (`dnp3.rs:77-82`). -/
inductive DnpError where
  | tooShort (have_ need : Nat)
  | badStartBytes (bytes : List UInt8)
  | headerCrcMismatch (expected got : UInt16)
  | insufficientPayload (declared available : Nat)
  deriving DecidableEq, Repr

/-- `total_frame_len` (`dnp3.rs:100-102`). -/
def totalFrameLen (lengthField : UInt8) : Nat := lengthField.toNat + 5

/-- `u16::from_le_bytes` of the two bytes at an offset. -/
def u16FromLe (buf : List UInt8) (offset : Nat) : UInt16 :=
  UInt16.ofNat (beNat ((buf.drop offset).take 2).reverse)

/-- `u16::to_le_bytes`. -/
def u16ToLe (n : UInt16) : List UInt8 := (beBytes 2 n.toNat).reverse

/-- `extract_payload` (`dnp3.rs:108-139`). A length field below 5 declares a frame that ends
inside the header, and the range of the payload panics. -/
def extractPayload (buf : List UInt8) : RustM DnpError (DnpHeader × List UInt8) :=
  if buf.length < dllHeaderSize then err (.tooShort buf.length dllHeaderSize)
  else if buf.take 2 ≠ dnp3StartBytes then err (.badStartBytes (buf.take 2))
  else
    let length := buf.getD 2 0
    let control := buf.getD 3 0
    let destination := u16FromLe buf 4
    let source := u16FromLe buf 6
    let crcHeader := u16FromLe buf 8
    let expectedCrc := crc16Dnp ((buf.drop 2).take 6)
    if expectedCrc ≠ crcHeader then err (.headerCrcMismatch expectedCrc crcHeader)
    else
      let frameLen := totalFrameLen length
      if buf.length < frameLen then err (.insufficientPayload frameLen buf.length)
      else
        let header := { length, control, destination, source, crcHeader }
        if frameLen < dllHeaderSize then
          panics s!"slice index starts at {dllHeaderSize} but ends at {frameLen}"
        else
          let payload := (buf.take frameLen).drop dllHeaderSize
          .ok (header, payload)

/-- `reconstruct` (`dnp3.rs:145-169`). -/
def reconstruct (header : DnpHeader) (payload : List UInt8) : List UInt8 :=
  let length := UInt8.ofNat (payload.length + 5)
  let headerBody := [length, header.control] ++
    (u16ToLe header.destination ++ u16ToLe header.source)
  let crc := crc16Dnp headerBody
  dnp3StartBytes ++ (headerBody ++ (u16ToLe crc ++ payload))

end Dnp3

/-! ## What an extractor has read -/

/-- Exactly one Modbus frame, without bytes beyond its declared length. -/
def Modbus.IsFrame (frame : List UInt8) : Prop :=
  ∃ hdr pdu, Modbus.extractPdu frame = .ok (hdr, pdu) ∧ frame.length = 6 + hdr.length.toNat

/-- Exactly one DNP3 frame, without bytes beyond its declared length. -/
def Dnp3.IsFrame (frame : List UInt8) : Prop :=
  ∃ hdr payload, Dnp3.extractPayload frame = .ok (hdr, payload) ∧
    frame.length = Dnp3.totalFrameLen hdr.length

/-- An accepted Modbus buffer holds the six bytes before the unit id and then the PDU. -/
theorem Modbus.length_of_extractPdu {buf pdu : List UInt8} {header : Modbus.MbapHeader}
    (h : Modbus.extractPdu buf = .ok (header, pdu)) :
    pdu.length = header.length.toNat ∧ 6 + pdu.length ≤ buf.length ∧ 7 ≤ buf.length ∧
      pdu = (buf.drop 6).take header.length.toNat := by
  unfold Modbus.extractPdu at h
  split at h
  case isTrue => cases h
  case isFalse hlen =>
    simp only at h
    split at h
    case isTrue => cases h
    case isFalse =>
      split at h
      case isTrue => cases h
      case isFalse havail =>
        simp only [Except.ok.injEq, Prod.mk.injEq] at h
        obtain ⟨rfl, rfl⟩ := h
        simp only [Modbus.mbapHeaderSize] at hlen
        simp only [List.length_take, List.length_drop, and_true]
        omega

/-- A field read from two bytes writes them again. -/
theorem Modbus.beBytes_u16FromBe {buf : List UInt8} {offset : Nat}
    (h : offset + 2 ≤ buf.length) :
    beBytes 2 (Modbus.u16FromBe buf offset).toNat = (buf.drop offset).take 2 := by
  have hlen : ((buf.drop offset).take 2).length = 2 := by
    rw [List.length_take, List.length_drop]
    omega
  have hlt := beNat_lt ((buf.drop offset).take 2)
  rw [hlen] at hlt
  rw [Modbus.u16FromBe, UInt16.toNat_ofNat_of_lt' hlt, beBytes_beNat_of_length hlen]

/-- The header fields of an accepted Modbus buffer are the bytes they were read from. -/
theorem Modbus.header_of_extractPdu {buf pdu : List UInt8} {header : Modbus.MbapHeader}
    (h : Modbus.extractPdu buf = .ok (header, pdu)) :
    beBytes 2 header.length.toNat = (buf.drop 4).take 2 ∧
      beBytes 2 Modbus.modbusProtocolId.toNat = (buf.drop 2).take 2 := by
  have hseven := (Modbus.length_of_extractPdu h).2.2.1
  unfold Modbus.extractPdu at h
  split at h
  case isTrue => cases h
  case isFalse =>
    simp only at h
    split at h
    case isTrue => cases h
    case isFalse hproto =>
      split at h
      case isTrue => cases h
      case isFalse =>
        simp only [Except.ok.injEq, Prod.mk.injEq] at h
        obtain ⟨rfl, -⟩ := h
        refine ⟨Modbus.beBytes_u16FromBe (by omega), ?_⟩
        rw [← Decidable.not_not.mp hproto]
        exact Modbus.beBytes_u16FromBe (by omega)

/-- An accepted DNP3 buffer holds the ten header bytes and then the payload. -/
theorem Dnp3.length_of_extractPayload {buf payload : List UInt8} {header : Dnp3.DnpHeader}
    (h : Dnp3.extractPayload buf = .ok (header, payload)) :
    10 + payload.length = Dnp3.totalFrameLen header.length ∧ 10 + payload.length ≤ buf.length ∧
      payload = (buf.take (Dnp3.totalFrameLen header.length)).drop 10 := by
  unfold Dnp3.extractPayload at h
  split at h
  case isTrue => cases h
  case isFalse =>
    split at h
    case isTrue => cases h
    case isFalse =>
      simp only at h
      split at h
      case isTrue => cases h
      case isFalse =>
        split at h
        case isTrue => cases h
        case isFalse hfit =>
          split at h
          case isTrue => cases h
          case isFalse hrange =>
            simp only [Except.ok.injEq, Prod.mk.injEq] at h
            obtain ⟨rfl, rfl⟩ := h
            simp only [Dnp3.dllHeaderSize] at hrange
            simp only [List.length_drop, List.length_take, Dnp3.dllHeaderSize, and_true]
            omega

end Napqes.Rust
