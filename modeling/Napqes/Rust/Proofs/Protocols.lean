import Napqes.Rust.Protocols

/-!
# The frame extractors and their inverses (`rust/src/protocols/modbus.rs`, `dnp3.rs`)

One lemma says when an extractor accepts a buffer and what it returns then; the laws between an
extractor and the function that builds a frame again are read off it. Both extractors trust a
declared length: a DNP3 length below 5 ends the frame inside its header and the range of the
payload panics, a Modbus length of 0 cuts the unit id off the PDU.
-/

namespace Napqes.Rust

/-! ## DNP3 -/

namespace Dnp3

variable {buf payload rest : List UInt8} {header : DnpHeader}

/-- The tests of `extract_payload` on the ten header bytes: the length of the buffer, the start
bytes and the CRC over bytes 2..8. -/
def HeaderValid (buf : List UInt8) : Prop :=
  dllHeaderSize ≤ buf.length ∧ buf.take 2 = dnp3StartBytes ∧
    crc16Dnp ((buf.drop 2).take 6) = u16FromLe buf 8

instance : Decidable (HeaderValid buf) := inferInstanceAs (Decidable (_ ∧ _ ∧ _))

/-- The fields `extract_payload` reads from the header bytes. -/
def headerOf (buf : List UInt8) : DnpHeader where
  length := buf.getD 2 0
  control := buf.getD 3 0
  destination := u16FromLe buf 4
  source := u16FromLe buf 6
  crcHeader := u16FromLe buf 8

/-- Behind a valid header the declared length alone decides: a value, an `Err` or a panic. -/
theorem extractPayload_of_headerValid {frameLen : Nat} (h : HeaderValid buf)
    (hframe : totalFrameLen (headerOf buf).length = frameLen) :
    extractPayload buf =
      if buf.length < frameLen then err (.insufficientPayload frameLen buf.length)
      else if frameLen < dllHeaderSize then
        panics s!"slice index starts at {dllHeaderSize} but ends at {frameLen}"
      else .ok (headerOf buf, (buf.take frameLen).drop dllHeaderSize) := by
  obtain ⟨hlen, hstart, hcrc⟩ := h
  unfold extractPayload
  rw [if_neg (Nat.not_lt.mpr hlen), if_neg (not_not.mpr hstart)]
  simp only [hcrc, ne_eq, not_true_eq_false, if_false]
  rw [← hframe]
  rfl

/-- Without a valid header the call returns an `Err`. -/
theorem extractPayload_of_not_headerValid (h : ¬ HeaderValid buf) :
    ∃ e, extractPayload buf = err e := by
  unfold extractPayload
  by_cases hlen : buf.length < dllHeaderSize
  · exact ⟨_, if_pos hlen⟩
  · rw [if_neg hlen]
    by_cases hstart : buf.take 2 ≠ dnp3StartBytes
    · exact ⟨_, if_pos hstart⟩
    · rw [if_neg hstart]
      have hcrc : crc16Dnp ((buf.drop 2).take 6) ≠ u16FromLe buf 8 := by
        intro hcrc
        exact h ⟨Nat.not_lt.mp hlen, not_not.mp hstart, hcrc⟩
      exact ⟨_, if_pos hcrc⟩

/-- When `extract_payload` accepts a buffer, and what it returns then. -/
theorem extractPayload_eq_ok_iff :
    extractPayload buf = .ok (header, payload) ↔
      HeaderValid buf ∧ 5 ≤ (headerOf buf).length.toNat ∧
        totalFrameLen (headerOf buf).length ≤ buf.length ∧ header = headerOf buf ∧
        payload = (buf.take (totalFrameLen (headerOf buf).length)).drop dllHeaderSize := by
  by_cases hvalid : HeaderValid buf
  · rw [extractPayload_of_headerValid hvalid rfl]
    have hsize : totalFrameLen (headerOf buf).length < dllHeaderSize ↔
        (headerOf buf).length.toNat < 5 := by
      simp only [totalFrameLen, dllHeaderSize]
      omega
    split
    case isTrue hfit =>
      simp only [err, reduceCtorEq, false_iff]
      omega
    case isFalse hfit =>
      split
      case isTrue hrange =>
        simp only [panics, reduceCtorEq, false_iff]
        rw [hsize] at hrange
        omega
      case isFalse hrange =>
        rw [hsize, Nat.not_lt] at hrange
        simp only [Except.ok.injEq, Prod.mk.injEq, hvalid, hrange, Nat.not_lt.mp hfit, true_and,
          eq_comm]
  · obtain ⟨e, he⟩ := extractPayload_of_not_headerValid hvalid
    rw [he]
    simp [err, hvalid]

/-- The call panics exactly on a valid header that declares fewer than five bytes: such a buffer
always holds the declared frame, so the length test before the slice passes. -/
theorem returns_extractPayload_iff :
    Returns (extractPayload buf) ↔ ¬ (HeaderValid buf ∧ (headerOf buf).length.toNat < 5) := by
  by_cases hvalid : HeaderValid buf
  · have hlen : 10 ≤ buf.length := hvalid.1
    have hsize : dllHeaderSize = 10 := rfl
    rw [@extractPayload_of_headerValid buf ((headerOf buf).length.toNat + 5) hvalid rfl]
    simp only [hvalid, true_and]
    by_cases hshort : (headerOf buf).length.toNat < 5
    · rw [if_neg (by omega), if_pos (by omega)]
      constructor
      · intro h
        exact absurd rfl (h _)
      · intro h
        exact absurd hshort h
    · refine ⟨fun _ => hshort, fun _ => ?_⟩
      by_cases hfit : buf.length < (headerOf buf).length.toNat + 5
      · rw [if_pos hfit]
        exact .err _
      · rw [if_neg hfit, if_neg (by omega)]
        exact .ok _
  · obtain ⟨e, he⟩ := extractPayload_of_not_headerValid hvalid
    rw [he]
    simp [Returns.err, hvalid]

/-- What a caller that feeds network bytes to `extract_payload` relies on: the call returns, and
an accepted buffer is framed as the header says. -/
structure ParsesSafely (buf : List UInt8) : Prop where
  returns : Returns (extractPayload buf)
  framed : ∀ header payload, extractPayload buf = .ok (header, payload) →
    buf.take 2 = dnp3StartBytes ∧ crc16Dnp ((buf.drop 2).take 6) = u16FromLe buf 8 ∧
      header.length.toNat + 5 ≤ buf.length ∧
      payload = (buf.take (header.length.toNat + 5)).drop 10

theorem parsesSafely_iff (buf : List UInt8) :
    ParsesSafely buf ↔ ¬ (HeaderValid buf ∧ (headerOf buf).length.toNat < 5) := by
  constructor
  · intro h
    exact returns_extractPayload_iff.mp h.returns
  · intro h
    refine ⟨returns_extractPayload_iff.mpr h, ?_⟩
    intro header payload hok
    obtain ⟨hvalid, -, hfit, rfl, rfl⟩ := extractPayload_eq_ok_iff.mp hok
    exact ⟨hvalid.2.1, hvalid.2.2, hfit, rfl⟩

/-- Ten bytes with a correct CRC whose length byte is 0. -/
theorem not_parsesSafely_zero_length :
    ¬ ParsesSafely [0x05, 0x64, 0, 0, 0, 0, 0, 0, 0xff, 0xff] := by
  intro h
  apply returns_extractPayload_iff.mp h.returns
  decide +kernel

/-! ### Building a frame again -/

/-- A field read from two bytes writes them again. -/
theorem u16ToLe_u16FromLe {offset : Nat} (h : offset + 2 ≤ buf.length) :
    u16ToLe (u16FromLe buf offset) = (buf.drop offset).take 2 := by
  have hlen : ((buf.drop offset).take 2).reverse.length = 2 := by
    rw [List.length_reverse, List.length_take, List.length_drop]
    omega
  have hlt := beNat_lt ((buf.drop offset).take 2).reverse
  rw [hlen] at hlt
  rw [u16ToLe, u16FromLe, UInt16.toNat_ofNat_of_lt' hlt, beBytes_beNat_of_length hlen,
    List.reverse_reverse]

/-- Two bytes that a field wrote read as the field. -/
theorem u16FromLe_of_take {offset : Nat} {n : UInt16} (h : (buf.drop offset).take 2 = u16ToLe n) :
    u16FromLe buf offset = n := by
  have hlt : n.toNat < 256 ^ 2 := n.toNat_lt
  rw [u16FromLe, h, u16ToLe, List.reverse_reverse, beNat_beBytes_of_lt hlt, UInt16.ofNat_toNat]

theorem length_u16ToLe (n : UInt16) : (u16ToLe n).length = 2 := by
  rw [u16ToLe, List.length_reverse, length_beBytes]

/-- The six bytes under the CRC, rebuilt from the fields read out of them. -/
theorem body_headerOf (h : dllHeaderSize ≤ buf.length) :
    [(headerOf buf).length, (headerOf buf).control] ++
        (u16ToLe (headerOf buf).destination ++ u16ToLe (headerOf buf).source) =
      (buf.drop 2).take 6 := by
  simp only [dllHeaderSize] at h
  have hfields : [(headerOf buf).length, (headerOf buf).control] = (buf.drop 2).take 2 := by
    have htwo : 2 < buf.length := by omega
    have hthree : 3 < buf.length := by omega
    simp only [headerOf, List.getD_eq_getElem?_getD, List.getElem?_eq_getElem htwo,
      List.getElem?_eq_getElem hthree, Option.getD_some]
    rw [List.drop_eq_getElem_cons htwo, List.take_succ_cons, List.drop_eq_getElem_cons hthree,
      List.take_succ_cons, List.take_zero]
  have hdestination : u16ToLe (headerOf buf).destination = (buf.drop 4).take 2 :=
    u16ToLe_u16FromLe (by omega)
  have hsource : u16ToLe (headerOf buf).source = (buf.drop 6).take 2 :=
    u16ToLe_u16FromLe (by omega)
  rw [hfields, hdestination, hsource, show 6 = 2 + (2 + 2) from rfl, List.take_add, List.take_add,
    List.drop_drop, List.drop_drop]

/-- A frame taken apart and built again is the frame. -/
theorem reconstruct_of_extractPayload (h : extractPayload buf = .ok (header, payload)) :
    reconstruct header payload = buf.take (header.length.toNat + 5) := by
  have hsplit := Dnp3.length_of_extractPayload h
  obtain ⟨hvalid, hfive, hfit, rfl, hpayload⟩ := extractPayload_eq_ok_iff.mp h
  have hlen : 10 ≤ buf.length := hvalid.1
  have hlength : UInt8.ofNat (payload.length + 5) = (headerOf buf).length := by
    have hcount : payload.length + 5 = (headerOf buf).length.toNat := by
      have hframe := hsplit.1
      simp only [totalFrameLen] at hframe
      omega
    rw [hcount, UInt8.ofNat_toNat]
  have hcrc : u16ToLe (u16FromLe buf 8) = (buf.drop 8).take 2 := u16ToLe_u16FromLe (by omega)
  have hten : buf.take 10 = buf.take 2 ++ ((buf.drop 2).take 6 ++ (buf.drop 8).take 2) := by
    rw [show 10 = 2 + (6 + 2) from rfl, List.take_add, List.take_add, List.drop_drop]
  calc reconstruct (headerOf buf) payload
      = dnp3StartBytes ++ ((buf.drop 2).take 6 ++ ((buf.drop 8).take 2 ++ payload)) := by
        rw [reconstruct, hlength, body_headerOf hvalid.1, hvalid.2.2, hcrc]
    _ = buf.take 10 ++ payload := by
        rw [← hvalid.2.1, hten, List.append_assoc, List.append_assoc]
    _ = (buf.take ((headerOf buf).length.toNat + 5)).take 10 ++
          (buf.take ((headerOf buf).length.toNat + 5)).drop 10 := by
        rw [List.take_take, Nat.min_eq_left (by omega), hpayload]
        rfl
    _ = buf.take ((headerOf buf).length.toNat + 5) := List.take_append_drop _ _

/-- A built frame, with whatever follows it, is taken apart into what it was built from. -/
theorem extractPayload_reconstruct (header : DnpHeader) (rest : List UInt8)
    (hpayload : payload.length ≤ 250) :
    ∃ crc, extractPayload (reconstruct header payload ++ rest) =
      .ok ({ header with length := UInt8.ofNat (payload.length + 5), crcHeader := crc },
        payload) := by
  obtain ⟨length, hlength⟩ : ∃ length, UInt8.ofNat (payload.length + 5) = length := ⟨_, rfl⟩
  have hcount : length.toNat = payload.length + 5 := by
    rw [← hlength]
    exact UInt8.toNat_ofNat_of_lt' (show payload.length + 5 < 256 by omega)
  -- the two bytes of each field, so that every range of the frame is literal
  obtain ⟨d₀, d₁, hdestination⟩ := List.length_eq_two.mp (length_u16ToLe header.destination)
  obtain ⟨s₀, s₁, hsource⟩ := List.length_eq_two.mp (length_u16ToLe header.source)
  obtain ⟨crc, hcrc⟩ : ∃ crc, crc16Dnp [length, header.control, d₀, d₁, s₀, s₁] = crc := ⟨_, rfl⟩
  obtain ⟨c₀, c₁, hcrcBytes⟩ := List.length_eq_two.mp (length_u16ToLe crc)
  have hframe : reconstruct header payload ++ rest =
      0x05 :: 0x64 :: length :: header.control :: d₀ :: d₁ :: s₀ :: s₁ :: c₀ :: c₁ ::
        (payload ++ rest) := by
    simp [reconstruct, hlength, hdestination, hsource, hcrc, hcrcBytes, dnp3StartBytes]
  obtain ⟨buf, hbuf⟩ : ∃ buf, reconstruct header payload ++ rest = buf := ⟨_, rfl⟩
  rw [hbuf] at hframe ⊢
  have hreadDestination : u16FromLe buf 4 = header.destination :=
    u16FromLe_of_take (by rw [hframe, hdestination]; rfl)
  have hreadSource : u16FromLe buf 6 = header.source :=
    u16FromLe_of_take (by rw [hframe, hsource]; rfl)
  have hreadCrc : u16FromLe buf 8 = crc :=
    u16FromLe_of_take (by rw [hframe, hcrcBytes]; rfl)
  have hheader : headerOf buf = { header with length := length, crcHeader := crc } := by
    rw [headerOf, hreadDestination, hreadSource, hreadCrc, hframe]
    rfl
  have hvalid : HeaderValid buf := by
    refine ⟨?_, ?_, ?_⟩
    · simp [hframe, dllHeaderSize]
    · rw [hframe]
      rfl
    · rw [hreadCrc, hframe]
      exact hcrc
  refine ⟨crc, extractPayload_eq_ok_iff.mpr ⟨hvalid, ?_, ?_, ?_, ?_⟩⟩
  · rw [hheader, hcount]
    omega
  · rw [hheader, hframe]
    simp only [totalFrameLen, hcount, List.length_cons, List.length_append]
    omega
  · rw [hheader, hlength]
  · rw [hheader, hframe]
    simp [totalFrameLen, hcount, dllHeaderSize]

/-- `extract_payload` and `reconstruct` are inverse to each other: on every accepted buffer, and on
every frame whose payload fits the length byte. -/
theorem extractPayload_reconstruct_inverse :
    (∀ buf header payload, extractPayload buf = .ok (header, payload) →
      reconstruct header payload = buf.take (header.length.toNat + 5)) ∧
    (∀ header payload rest, payload.length ≤ 250 →
      ∃ header', extractPayload (reconstruct header payload ++ rest) = .ok (header', payload) ∧
        header'.control = header.control ∧ header'.destination = header.destination ∧
        header'.source = header.source ∧ header'.length.toNat = payload.length + 5) := by
  constructor
  · intro buf header payload h
    exact reconstruct_of_extractPayload h
  · intro header payload rest h
    obtain ⟨crc, hok⟩ := extractPayload_reconstruct header rest h
    refine ⟨_, hok, rfl, rfl, rfl, ?_⟩
    exact UInt8.toNat_ofNat_of_lt' (show payload.length + 5 < 256 by omega)

/-- The payload of a read request. -/
def readRequestPayload : List UInt8 := [0xC0, 0xC1, 0x01, 0x3C, 0x02, 0x06]

/-- A read request of station 1024, followed by the start of another frame: it is taken apart and
built again. -/
theorem extractPayload_reconstruct_inverse_request :
    ∃ buf header', buf = reconstruct ⟨0, 0xC4, 1, 1024, 0⟩ readRequestPayload ++ [0x05, 0x64] ∧
      extractPayload buf = .ok (header', readRequestPayload) ∧ header'.control = 0xC4 ∧
      header'.destination = 1 ∧ header'.source = 1024 ∧ header'.length.toNat = 11 ∧
      reconstruct header' readRequestPayload = buf.take 16 := by
  obtain ⟨hbuild, hextract⟩ := extractPayload_reconstruct_inverse
  obtain ⟨header', hok, hcontrol, hdestination, hsource, hlength⟩ :=
    hextract ⟨0, 0xC4, 1, 1024, 0⟩ readRequestPayload [0x05, 0x64] (by decide)
  have hbuilt := hbuild _ _ _ hok
  rw [hlength] at hbuilt
  exact ⟨_, header', rfl, hok, hcontrol, hdestination, hsource, hlength, hbuilt⟩

end Dnp3

/-! ## Modbus TCP -/

namespace Modbus

variable {buf pdu rest : List UInt8} {header : MbapHeader}

/-- The fields `extract_pdu` reads from the header bytes. -/
def headerOf (buf : List UInt8) : MbapHeader where
  transactionId := u16FromBe buf 0
  length := u16FromBe buf 4
  unitId := buf.getD 6 0

/-- When `extract_pdu` accepts a buffer, and what it returns then. -/
theorem extractPdu_eq_ok_iff :
    extractPdu buf = .ok (header, pdu) ↔
      mbapHeaderSize ≤ buf.length ∧ u16FromBe buf 2 = modbusProtocolId ∧
        6 + (headerOf buf).length.toNat ≤ buf.length ∧ header = headerOf buf ∧
        pdu = (buf.drop 6).take (headerOf buf).length.toNat := by
  unfold extractPdu
  by_cases hlen : buf.length < mbapHeaderSize
  · rw [if_pos hlen]
    simp only [err, reduceCtorEq, false_iff]
    omega
  · rw [if_neg hlen]
    have hsize : mbapHeaderSize = 7 := rfl
    by_cases hproto : u16FromBe buf 2 = modbusProtocolId
    · rw [if_neg (not_not.mpr hproto)]
      by_cases hfit : buf.length - 6 < (u16FromBe buf 4).toNat
      · rw [if_pos hfit]
        simp only [err, reduceCtorEq, false_iff, headerOf]
        omega
      · rw [if_neg hfit]
        have hroom : 6 + (u16FromBe buf 4).toNat ≤ buf.length := by omega
        simp only [Except.ok.injEq, Prod.mk.injEq, Nat.not_lt.mp hlen, hproto, hroom, true_and,
          eq_comm, headerOf]
    · rw [if_pos hproto]
      simp [err, hproto]

/-- Two bytes that a field wrote read as the field. -/
theorem u16FromBe_of_take {offset : Nat} {n : UInt16}
    (h : (buf.drop offset).take 2 = beBytes 2 n.toNat) : u16FromBe buf offset = n := by
  have hlt : n.toNat < 256 ^ 2 := n.toNat_lt
  rw [u16FromBe, h, beNat_beBytes_of_lt hlt, UInt16.ofNat_toNat]

/-- A frame taken apart and built again is the frame. -/
theorem reconstruct_of_extractPdu (h : extractPdu buf = .ok (header, pdu)) :
    reconstruct header pdu = buf.take (6 + header.length.toNat) := by
  have hcount := (Modbus.length_of_extractPdu h).1
  obtain ⟨hlen, hproto, hfit, rfl, hpdu⟩ := extractPdu_eq_ok_iff.mp h
  simp only [mbapHeaderSize] at hlen
  have htransaction : beBytes 2 (headerOf buf).transactionId.toNat = (buf.drop 0).take 2 :=
    beBytes_u16FromBe (by omega)
  have hprotocol : beBytes 2 modbusProtocolId.toNat = (buf.drop 2).take 2 := by
    rw [← hproto]
    exact beBytes_u16FromBe (by omega)
  have hlength : beBytes 2 (UInt16.ofNat pdu.length).toNat = (buf.drop 4).take 2 := by
    rw [hcount, UInt16.ofNat_toNat]
    exact beBytes_u16FromBe (by omega)
  rw [reconstruct, htransaction, hprotocol, hlength, hpdu, List.take_add,
    show 6 = 2 + (2 + 2) from rfl, List.take_add, List.take_add, List.drop_drop, List.drop_zero]
  simp only [List.append_assoc]

/-- The PDU of an accepted buffer starts with the unit id, unless the declared length is 0. -/
theorem head?_of_extractPdu (h : extractPdu buf = .ok (header, pdu))
    (hpos : 0 < header.length.toNat) : pdu.head? = some header.unitId := by
  obtain ⟨hlen, -, -, rfl, rfl⟩ := extractPdu_eq_ok_iff.mp h
  have hsix : 6 < buf.length := hlen
  obtain ⟨n, hn⟩ := Nat.exists_eq_succ_of_ne_zero (Nat.pos_iff_ne_zero.mp hpos)
  rw [hn, List.drop_eq_getElem_cons hsix, Nat.succ_eq_add_one, List.take_succ_cons, List.head?_cons]
  simp [headerOf, hsix]

/-- A built frame, with whatever follows it, is taken apart into what it was built from. -/
theorem extractPdu_reconstruct (header : MbapHeader) (rest : List UInt8) (hpos : pdu ≠ [])
    (hmax : pdu.length ≤ 65535) :
    ∃ header', extractPdu (reconstruct header pdu ++ rest) = .ok (header', pdu) ∧
      header'.transactionId = header.transactionId ∧ pdu.head? = some header'.unitId := by
  have hcount : (UInt16.ofNat pdu.length).toNat = pdu.length :=
    UInt16.toNat_ofNat_of_lt' (show pdu.length < 65536 by omega)
  have hone : 0 < pdu.length := List.length_pos_iff.mpr hpos
  obtain ⟨buf, hbuf⟩ : ∃ buf, reconstruct header pdu ++ rest = buf := ⟨_, rfl⟩
  have hframe : buf = beBytes 2 header.transactionId.toNat ++ (beBytes 2 modbusProtocolId.toNat ++
      (beBytes 2 (UInt16.ofNat pdu.length).toNat ++ (pdu ++ rest))) := by
    rw [← hbuf, reconstruct]
    simp only [List.append_assoc]
  rw [hbuf]
  have htransaction : u16FromBe buf 0 = header.transactionId :=
    u16FromBe_of_take (by rw [hframe]; rfl)
  have hprotocol : u16FromBe buf 2 = modbusProtocolId :=
    u16FromBe_of_take (by rw [hframe]; rfl)
  have hlength : u16FromBe buf 4 = UInt16.ofNat pdu.length :=
    u16FromBe_of_take (by rw [hframe]; rfl)
  have hok : extractPdu buf = .ok (headerOf buf, pdu) := by
    refine extractPdu_eq_ok_iff.mpr ⟨?_, hprotocol, ?_, rfl, ?_⟩
    · simp only [hframe, mbapHeaderSize, List.length_append, length_beBytes]
      omega
    · simp only [headerOf, hlength, hcount]
      simp only [hframe, List.length_append, length_beBytes]
      omega
    · simp only [headerOf, hlength, hcount]
      rw [hframe]
      exact (List.take_left' rfl).symm
  refine ⟨headerOf buf, hok, htransaction, ?_⟩
  apply head?_of_extractPdu hok
  simp only [headerOf, hlength, hcount]
  exact hone

/-- What the gateway relies on when it files a sealed PDU under the unit id of its header: the
PDU begins with that unit id, and the frame can be built again from the two. -/
def BindsUnit (buf : List UInt8) : Prop :=
  ∀ header pdu, extractPdu buf = .ok (header, pdu) →
    pdu ≠ [] ∧ pdu.head? = some header.unitId ∧
      reconstruct header pdu = buf.take (6 + header.length.toNat)

/-- An MBAP header that passes the tests of `extract_pdu` and declares that nothing follows. -/
def DeclaresNothing (buf : List UInt8) : Prop :=
  mbapHeaderSize ≤ buf.length ∧ u16FromBe buf 2 = modbusProtocolId ∧ u16FromBe buf 4 = 0

instance : Decidable (DeclaresNothing buf) := inferInstanceAs (Decidable (_ ∧ _ ∧ _))

theorem bindsUnit_iff : BindsUnit buf ↔ ¬ DeclaresNothing buf := by
  constructor
  · rintro h ⟨hlen, hproto, hzero⟩
    have hnothing : (headerOf buf).length.toNat = 0 := by
      simp only [headerOf, hzero]
      rfl
    have hok : extractPdu buf = .ok (headerOf buf, []) := by
      refine extractPdu_eq_ok_iff.mpr ⟨hlen, hproto, ?_, rfl, ?_⟩
      · simp only [mbapHeaderSize] at hlen
        omega
      · rw [hnothing, List.take_zero]
    exact (h _ _ hok).1 rfl
  · intro hlength header pdu hok
    have hpos : 0 < header.length.toNat := by
      obtain ⟨hlen, hproto, -, rfl, -⟩ := extractPdu_eq_ok_iff.mp hok
      rw [Nat.pos_iff_ne_zero]
      intro hzero
      exact hlength ⟨hlen, hproto, UInt16.toNat_inj.mp hzero⟩
    have hhead := head?_of_extractPdu hok hpos
    refine ⟨?_, hhead, reconstruct_of_extractPdu hok⟩
    rintro rfl
    cases hhead

/-- The laws between `extract_pdu` and `reconstruct`. -/
theorem extractPdu_reconstruct_laws (buf : List UInt8) (header : MbapHeader)
    (pdu rest : List UInt8) :
    (BindsUnit buf ↔ ¬ DeclaresNothing buf) ∧
      (1 ≤ pdu.length → pdu.length ≤ 65535 →
        ∃ header', extractPdu (reconstruct header pdu ++ rest) = .ok (header', pdu) ∧
          header'.transactionId = header.transactionId ∧ pdu.head? = some header'.unitId) := by
  refine ⟨bindsUnit_iff, ?_⟩
  intro hone hmax
  exact extractPdu_reconstruct header rest (List.length_pos_iff.mp hone) hmax

/-- A response of unit 17 with three registers, followed by the start of another frame: the unit is
bound to the PDU, and the frame is built again. -/
theorem extractPdu_reconstruct_laws_response :
    ∃ buf header', buf = reconstruct ⟨7, 0, 0⟩ [0x11, 3, 6, 0, 10, 0, 20, 0, 30] ++ [0x00, 0x08] ∧
      BindsUnit buf ∧ extractPdu buf = .ok (header', [0x11, 3, 6, 0, 10, 0, 20, 0, 30]) ∧
      header'.transactionId = 7 ∧ header'.unitId = 0x11 ∧
      reconstruct header' [0x11, 3, 6, 0, 10, 0, 20, 0, 30] =
        buf.take (6 + header'.length.toNat) := by
  obtain ⟨hbinds, hextract⟩ := extractPdu_reconstruct_laws
    (reconstruct ⟨7, 0, 0⟩ [0x11, 3, 6, 0, 10, 0, 20, 0, 30] ++ [0x00, 0x08]) ⟨7, 0, 0⟩
    [0x11, 3, 6, 0, 10, 0, 20, 0, 30] [0x00, 0x08]
  have hbound := hbinds.mpr (by decide)
  obtain ⟨header', hok, htransaction, hunit⟩ := hextract (by decide) (by decide)
  exact ⟨_, header', rfl, hbound, hok, htransaction, (Option.some.inj hunit).symm,
    (hbound _ _ hok).2.2⟩

/-- Seven bytes whose length field is 0: the PDU is empty and the unit id is not in it. -/
theorem not_bindsUnit_zero_length : ¬ BindsUnit [0, 1, 0, 0, 0, 0, 9] := by
  intro h
  exact bindsUnit_iff.mp h (by decide)

end Modbus

end Napqes.Rust
