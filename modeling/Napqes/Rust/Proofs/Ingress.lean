import Napqes.Rust.Ingress
import Napqes.Rust.Proofs.OtRoundTrip

/-!
# The ingress and the segmentation of its input

A handler takes every read for one whole frame. It seals one PDU for each frame of a connection
exactly when the reads are the frames: a read that holds more than its frame loses the bytes
behind it, and a frame cut in two is not sealed at all.
-/

namespace Napqes.Rust

variable {ε : Type} {H : Hmac} {protocol : ProtocolId}
  {extract : List UInt8 → RustM ε (UInt64 × List UInt8)} {keyStore : KeyStore}

/-! ## One round -/

/-- What a round has done when it seals. -/
theorem ingressRound_eq_some {frame : List UInt8} {counters counters' : SequenceCounter}
    {s : SealedPdu}
    (h : ingressRound H protocol extract keyStore frame counters = .ok (some s, counters')) :
    extract frame = .ok (s.aad.deviceId, s.pdu) ∧ s.aad.protocol = protocol ∧
      counters.nextSeq protocol s.aad.deviceId = .ok (s.aad.seq, counters') ∧
      ∃ key, keyStore s.aad.deviceId = .ok key ∧ wrapPdu H s.pdu s.aad key = .ok s.envelope := by
  unfold ingressRound at h
  split at h
  case h_1 => cases h
  case h_2 => simp at h
  case h_3 deviceId pdu hextract =>
    simp only [bind_eq_ok] at h
    obtain ⟨⟨seq, c⟩, hseq, h⟩ := h
    simp only at h
    split at h
    case h_1 => simp [pure, Except.pure] at h
    case h_2 key hkey =>
      split at h
      case h_1 => cases h
      case h_2 => simp [pure, Except.pure] at h
      case h_3 envelope hwrap =>
        simp only [pure, Except.pure, Except.ok.injEq, Prod.mk.injEq, Option.some.injEq] at h
        obtain ⟨rfl, rfl⟩ := h
        exact ⟨hextract, rfl, hseq, key, hkey, hwrap⟩

/-- A round on a frame of a known device seals it. -/
theorem ingressRound_of_key {frame pdu : List UInt8} {counters counters' : SequenceCounter}
    {deviceId seq : UInt64} {key : NapqesKey} (hextract : extract frame = .ok (deviceId, pdu))
    (hlen : pdu.length ≤ 65535) (hkey : keyStore deviceId = .ok key)
    (hseq : counters.nextSeq protocol deviceId = .ok (seq, counters')) :
    ∃ envelope, ingressRound H protocol extract keyStore frame counters =
      .ok (some { aad := { protocol, deviceId, seq }, pdu, envelope }, counters') := by
  obtain ⟨envelope, hwrap⟩ := @exists_wrapPdu H pdu hlen { protocol, deviceId, seq } key
  refine ⟨envelope, ?_⟩
  rw [ingressRound, hextract]
  simp only [hseq, ok_bind, hkey, hwrap]
  rfl

/-- The device a frame belongs to. -/
def deviceOf (extract : List UInt8 → RustM ε (UInt64 × List UInt8)) (frame : List UInt8) :
    Option UInt64 :=
  (extract frame).toOption.map Prod.fst

/-- The number `next_seq` gave out last, 0 before the first. -/
def SequenceCounter.lastSent (self : SequenceCounter) (device : DeviceKey) : UInt64 :=
  (self.sendState device).getD 0

theorem nextSeq_eq_ok_iff {counters counters' : SequenceCounter} {deviceId seq : UInt64} :
    counters.nextSeq protocol deviceId = .ok (seq, counters') ↔
      (counters.lastSent (protocol, deviceId)).toNat + 1 < 2 ^ 64 ∧
        seq = counters.lastSent (protocol, deviceId) + 1 ∧
        counters' = { counters with
          sendState := Function.update counters.sendState (protocol, deviceId)
            (some (counters.lastSent (protocol, deviceId) + 1)) } := by
  unfold SequenceCounter.nextSeq SequenceCounter.lastSent
  simp only
  split
  case isTrue hlt =>
    simp only [Except.ok.injEq, Prod.mk.injEq, hlt, true_and]
    exact ⟨fun h => ⟨h.1.symm, h.2.symm⟩, fun h => ⟨h.1.symm, h.2.symm⟩⟩
  case isFalse hge =>
    constructor
    · intro h
      cases h
    · intro h
      exact absurd h.1 hge

/-- The numbers after one more was given out. -/
theorem lastSent_of_nextSeq {counters counters' : SequenceCounter} {deviceId seq : UInt64}
    (h : counters.nextSeq protocol deviceId = .ok (seq, counters')) (d : UInt64) :
    (counters'.lastSent (protocol, d)).toNat =
      (counters.lastSent (protocol, d)).toNat + if d = deviceId then 1 else 0 := by
  obtain ⟨hlt, -, rfl⟩ := nextSeq_eq_ok_iff.mp h
  by_cases hd : d = deviceId
  · rw [if_pos hd, hd, SequenceCounter.lastSent]
    dsimp only
    rw [Function.update_self, Option.getD_some, UInt64.toNat_add, UInt64.toNat_one,
      Nat.mod_eq_of_lt hlt]
  · have hne : (protocol, d) ≠ (protocol, deviceId) := fun h => hd (Prod.mk.inj h).2
    rw [if_neg hd, SequenceCounter.lastSent]
    dsimp only
    rw [Function.update_of_ne hne, Nat.add_zero]
    rfl

/-- Numbers only grow. -/
theorem lastSent_le_of_nextSeq {counters counters' : SequenceCounter} {deviceId seq : UInt64}
    (h : counters.nextSeq protocol deviceId = .ok (seq, counters')) (device : DeviceKey) :
    counters.lastSent device ≤ counters'.lastSent device := by
  by_cases hdevice : device.1 = protocol
  · obtain ⟨p, d⟩ := device
    subst hdevice
    rw [UInt64.le_iff_toNat_le, lastSent_of_nextSeq h d]
    exact Nat.le_add_right _ _
  · obtain ⟨-, -, rfl⟩ := nextSeq_eq_ok_iff.mp h
    have hne : device ≠ (protocol, deviceId) := fun heq => hdevice (by rw [heq])
    unfold SequenceCounter.lastSent
    simp only [Function.update_of_ne hne]
    exact UInt64.le_refl _

/-! ## Whole connections -/

/-- A key for every device of the connection, and no number of a device runs out. -/
def IngressReady (protocol : ProtocolId)
    (extract : List UInt8 → RustM ε (UInt64 × List UInt8)) (keyStore : KeyStore)
    (counters : SequenceCounter) (frames : List (List UInt8)) : Prop :=
  (∀ frame ∈ frames, ∀ d, deviceOf extract frame = some d → ∃ key, keyStore d = .ok key) ∧
    ∀ d, (counters.lastSent (protocol, d)).toNat +
      (frames.filterMap (deviceOf extract)).count d < 2 ^ 64

/-- One sealed PDU for each frame, in order, with the device and the PDU of the frame. -/
def SealsEachFrame (extract : List UInt8 → RustM ε (UInt64 × List UInt8))
    (frames : List (List UInt8)) (out : List SealedPdu) : Prop :=
  out.map (fun s => (.ok (s.aad.deviceId, s.pdu) : RustM ε (UInt64 × List UInt8))) =
    frames.map extract

theorem handleIngress_cons {frame : List UInt8} (hne : frame ≠ []) {reads : List (List UInt8)}
    {counters counters' : SequenceCounter} {out : Option SealedPdu}
    (h : ingressRound H protocol extract keyStore frame counters = .ok (out, counters')) :
    (handleIngress H protocol extract keyStore (frame :: reads) counters).1 =
      out.toList ++ (handleIngress H protocol extract keyStore reads counters').1 := by
  rw [handleIngress, if_neg hne, h]

theorem handleIngress_of_error {frame : List UInt8} {reads : List (List UInt8)}
    {counters : SequenceCounter} {e : Fault Empty}
    (h : ingressRound H protocol extract keyStore frame counters = .error e) :
    (handleIngress H protocol extract keyStore (frame :: reads) counters).1 = [] := by
  rw [handleIngress]
  split
  case isTrue => rfl
  case isFalse => rw [h]

theorem deviceOf_of_extract {frame pdu : List UInt8} {d : UInt64}
    (h : extract frame = .ok (d, pdu)) : deviceOf extract frame = some d := by
  rw [deviceOf, h]
  rfl

/-- Reads that are the frames of a ready connection are sealed one by one. -/
theorem sealsEachFrame_of_frames {frames : List (List UInt8)}
    (hframes : ∀ frame ∈ frames, frame ≠ [] ∧
      ∃ d pdu, extract frame = .ok (d, pdu) ∧ pdu.length ≤ 65535)
    {counters : SequenceCounter} (hready : IngressReady protocol extract keyStore counters frames) :
    SealsEachFrame extract frames
      (handleIngress H protocol extract keyStore frames counters).1 := by
  induction frames generalizing counters with
  | nil => rfl
  | cons frame frames ih =>
      obtain ⟨hne, d, pdu, hextract, hlen⟩ := hframes frame (List.mem_cons_self ..)
      have hdevice := deviceOf_of_extract hextract
      obtain ⟨hkeys, hroom⟩ := hready
      rw [List.filterMap_cons_some hdevice] at hroom
      obtain ⟨key, hkey⟩ := hkeys frame (List.mem_cons_self ..) d hdevice
      have hfirst := hroom d
      rw [List.count_cons_self] at hfirst
      have hseq := (@nextSeq_eq_ok_iff protocol counters _ d _).mpr ⟨by omega, rfl, rfl⟩
      obtain ⟨envelope, hround⟩ := ingressRound_of_key (H := H) hextract hlen hkey hseq
      have hrest := ih (fun f hf => hframes f (List.mem_cons_of_mem _ hf))
        ⟨fun f hf => hkeys f (List.mem_cons_of_mem _ hf), fun d' => by
          have hlast := lastSent_of_nextSeq hseq d'
          have hbound := hroom d'
          rw [List.count_cons] at hbound
          rw [hlast]
          by_cases hd : d' = d
          · rw [if_pos hd]
            rw [hd] at hbound ⊢
            rw [if_pos (beq_self_eq_true d)] at hbound
            omega
          · rw [if_neg hd]
            omega⟩
      rw [SealsEachFrame, handleIngress_cons hne hround, Option.toList_some, List.map_append,
        List.map_cons, List.map_nil, List.singleton_append, List.map_cons]
      exact congrArg₂ List.cons hextract.symm hrest

/-- The bytes the sealed frames account for: each PDU came with `overhead` bytes in front. -/
def frameBytes (overhead : Nat) (out : List SealedPdu) : List Nat :=
  out.map fun s => overhead + s.pdu.length

/-- What is sealed never accounts for more than what was read; if it accounts for all of it,
every read was one sealed frame and nothing else. -/
theorem frameBytes_le {overhead : Nat}
    (hextract : ∀ {frame d pdu}, extract frame = .ok (d, pdu) →
      overhead + pdu.length ≤ frame.length)
    (reads : List (List UInt8)) (counters : SequenceCounter) :
    (frameBytes overhead (handleIngress H protocol extract keyStore reads counters).1).sum ≤
        reads.flatten.length ∧
      ((frameBytes overhead (handleIngress H protocol extract keyStore reads counters).1).sum =
        reads.flatten.length → (∀ r ∈ reads, r ≠ []) →
        frameBytes overhead (handleIngress H protocol extract keyStore reads counters).1 =
          reads.map List.length) := by
  induction reads generalizing counters with
  | nil => exact ⟨Nat.le_refl 0, fun _ _ => rfl⟩
  | cons frame reads ih =>
      rw [List.flatten_cons, List.length_append, List.map_cons]
      cases hround : ingressRound H protocol extract keyStore frame counters with
      | error e =>
          rw [handleIngress_of_error hround]
          refine ⟨Nat.zero_le _, ?_⟩
          intro hsum hne
          have hpos := List.length_pos_iff.mpr (hne frame (List.mem_cons_self ..))
          simp only [frameBytes, List.map_nil, List.sum_nil] at hsum
          omega
      | ok result =>
          obtain ⟨out, counters'⟩ := result
          obtain ⟨hle, heq⟩ := ih counters'
          by_cases hnil : frame = []
          · rw [handleIngress, if_pos hnil]
            refine ⟨Nat.zero_le _, ?_⟩
            intro _ hne
            exact absurd hnil (hne frame (List.mem_cons_self ..))
          rw [handleIngress_cons hnil hround]
          have hpos := List.length_pos_iff.mpr hnil
          cases out with
          | none =>
              rw [Option.toList_none, List.nil_append]
              refine ⟨by omega, ?_⟩
              intro hsum
              omega
          | some s =>
              obtain ⟨hpdu, -⟩ := ingressRound_eq_some hround
              have hsize := hextract hpdu
              simp only [frameBytes, Option.toList_some, List.singleton_append, List.map_cons,
                List.sum_cons] at hle heq ⊢
              refine ⟨by omega, ?_⟩
              intro hsum hne
              rw [heq (by omega) fun r hr => hne r (List.mem_cons_of_mem _ hr)]
              exact congrArg₂ List.cons (by omega) rfl

theorem length_handleIngress_le (reads : List (List UInt8)) (counters : SequenceCounter) :
    (handleIngress H protocol extract keyStore reads counters).1.length ≤ reads.length := by
  induction reads generalizing counters with
  | nil => exact Nat.le_refl 0
  | cons frame reads ih =>
      rw [handleIngress]
      split
      case isTrue => exact Nat.zero_le _
      case isFalse =>
        split
        case h_1 => exact Nat.zero_le _
        case h_2 out counters' _ =>
          have hrest := ih counters'
          have hout : out.toList.length ≤ 1 := by cases out <;> simp
          simp only [List.length_append, List.length_cons]
          omega

/-- A connection whose reads were all sealed was ready. -/
theorem ingressReady_of_length {reads : List (List UInt8)} {counters : SequenceCounter}
    (hlen : (handleIngress H protocol extract keyStore reads counters).1.length = reads.length) :
    IngressReady protocol extract keyStore counters reads := by
  induction reads generalizing counters with
  | nil =>
      refine ⟨?_, ?_⟩
      · intro frame hframe
        cases hframe
      · intro d
        exact UInt64.toNat_lt _
  | cons frame reads ih =>
      cases hround : ingressRound H protocol extract keyStore frame counters with
      | error e =>
          rw [handleIngress_of_error hround] at hlen
          cases hlen
      | ok result =>
          obtain ⟨out, counters'⟩ := result
          by_cases hnil : frame = []
          · rw [handleIngress, if_pos hnil] at hlen
            cases hlen
          rw [handleIngress_cons hnil hround, List.length_append, List.length_cons] at hlen
          have hle := @length_handleIngress_le _ H protocol extract keyStore reads counters'
          cases out with
          | none =>
              rw [Option.toList_none, List.length_nil] at hlen
              omega
          | some s =>
              rw [Option.toList_some, List.length_singleton] at hlen
              obtain ⟨hextract, -, hseq, key, hkey, -⟩ := ingressRound_eq_some hround
              obtain ⟨hkeys, hroom⟩ := @ih counters' (by omega)
              have hdevice := deviceOf_of_extract hextract
              refine ⟨?_, ?_⟩
              · intro f hf d hd
                rcases List.mem_cons.mp hf with rfl | hf
                · rw [hdevice, Option.some.injEq] at hd
                  exact ⟨key, hd ▸ hkey⟩
                · exact hkeys f hf d hd
              · intro d
                have hbound := hroom d
                rw [lastSent_of_nextSeq hseq d] at hbound
                rw [List.filterMap_cons_some hdevice, List.count_cons]
                by_cases hd : d = s.aad.deviceId
                · rw [if_pos hd] at hbound
                  rw [if_pos (beq_iff_eq.mpr hd.symm)]
                  omega
                · rw [if_neg hd] at hbound
                  rw [if_neg fun h => hd (beq_iff_eq.mp h).symm]
                  omega

/-- On a connection made of whole frames, one PDU is sealed for each frame exactly when each
read returned one frame, the key store knows the devices and no number runs out. -/
theorem sealsEachFrame_iff {overhead : Nat}
    (hextract : ∀ {frame d pdu}, extract frame = .ok (d, pdu) →
      overhead + pdu.length ≤ frame.length)
    {frames reads : List (List UInt8)} (hframes : ∀ frame ∈ frames, frame ≠ [] ∧
      ∃ d pdu, extract frame = .ok (d, pdu) ∧ frame.length = overhead + pdu.length ∧
        pdu.length ≤ 65535)
    (hreads : ∀ r ∈ reads, r ≠ []) (hbytes : reads.flatten = frames.flatten)
    (counters : SequenceCounter) :
    SealsEachFrame extract frames
        (handleIngress H protocol extract keyStore reads counters).1 ↔
      reads = frames ∧ IngressReady protocol extract keyStore counters frames := by
  constructor
  · intro h
    obtain ⟨-, heq⟩ := @frameBytes_le _ H protocol extract keyStore _ hextract reads counters
    -- The sealed PDUs are those of the frames, so they account for every byte read.
    have hsizes : frameBytes overhead
        (handleIngress H protocol extract keyStore reads counters).1 =
          frames.map List.length := by
      have hmap := congrArg (List.map fun r : RustM ε (UInt64 × List UInt8) =>
        overhead + ((r.toOption.map fun p => p.2.length).getD 0)) h
      rw [List.map_map, List.map_map] at hmap
      refine Eq.trans ?_ (hmap.trans ?_)
      · rfl
      · apply List.map_congr_left
        intro frame hframe
        obtain ⟨-, d, pdu, hpdu, hlen, -⟩ := hframes frame hframe
        rw [Function.comp_apply, hpdu, hlen]
        rfl
    have hsum : (frameBytes overhead
        (handleIngress H protocol extract keyStore reads counters).1).sum =
          reads.flatten.length := by
      rw [hsizes, hbytes, List.length_flatten]
    have hlengths := heq hsum hreads
    have hsame : reads = frames :=
      List.eq_iff_flatten_eq.mpr ⟨hbytes, hlengths.symm.trans hsizes⟩
    refine ⟨hsame, ?_⟩
    rw [← hsame]
    apply @ingressReady_of_length _ H
    have hcount := congrArg List.length hlengths
    rwa [frameBytes, List.length_map, List.length_map] at hcount
  · rintro ⟨rfl, hready⟩
    apply sealsEachFrame_of_frames _ hready
    intro frame hframe
    obtain ⟨hne, d, pdu, hpdu, -, hlen⟩ := hframes frame hframe
    exact ⟨hne, d, pdu, hpdu, hlen⟩

/-! ## Frames of the two protocols -/

theorem modbusPdu_eq_ok_iff {frame pdu : List UInt8} {d : UInt64} :
    modbusPdu frame = .ok (d, pdu) ↔
      ∃ hdr, Modbus.extractPdu frame = .ok (hdr, pdu) ∧ d = hdr.unitId.toUInt64 := by
  simp only [modbusPdu, bind_eq_ok, pure, Except.pure, Except.ok.injEq, Prod.mk.injEq]
  constructor
  · rintro ⟨⟨hdr, p⟩, h, rfl, rfl⟩
    exact ⟨hdr, h, rfl⟩
  · rintro ⟨hdr, h, rfl⟩
    exact ⟨(hdr, pdu), h, rfl, rfl⟩

theorem dnp3Pdu_eq_ok_iff {frame payload : List UInt8} {d : UInt64} :
    dnp3Pdu frame = .ok (d, payload) ↔
      ∃ hdr, Dnp3.extractPayload frame = .ok (hdr, payload) ∧ d = hdr.source.toUInt64 := by
  simp only [dnp3Pdu, bind_eq_ok, pure, Except.pure, Except.ok.injEq, Prod.mk.injEq]
  constructor
  · rintro ⟨⟨hdr, p⟩, h, rfl, rfl⟩
    exact ⟨hdr, h, rfl⟩
  · rintro ⟨hdr, h, rfl⟩
    exact ⟨(hdr, payload), h, rfl, rfl⟩

theorem Modbus.IsFrame.spec {frame : List UInt8} (h : Modbus.IsFrame frame) :
    frame ≠ [] ∧ ∃ d pdu, modbusPdu frame = .ok (d, pdu) ∧ frame.length = 6 + pdu.length ∧
      pdu.length ≤ 65535 := by
  obtain ⟨hdr, pdu, hextract, hlen⟩ := h
  obtain ⟨hpdu, -, hseven, -⟩ := Modbus.length_of_extractPdu hextract
  have hword := hdr.length.toNat_lt
  refine ⟨?_, hdr.unitId.toUInt64, pdu, modbusPdu_eq_ok_iff.mpr ⟨hdr, hextract, rfl⟩, ?_, ?_⟩
  · intro hnil
    rw [hnil, List.length_nil] at hseven
    omega
  · rw [hpdu, hlen]
  · omega

theorem Dnp3.IsFrame.spec {frame : List UInt8} (h : Dnp3.IsFrame frame) :
    frame ≠ [] ∧ ∃ d payload, dnp3Pdu frame = .ok (d, payload) ∧
      frame.length = 10 + payload.length ∧ payload.length ≤ 65535 := by
  obtain ⟨hdr, payload, hextract, hlen⟩ := h
  obtain ⟨hpayload, -, -⟩ := Dnp3.length_of_extractPayload hextract
  have hbyte := hdr.length.toNat_lt
  rw [Dnp3.totalFrameLen] at hpayload hlen
  refine ⟨?_, hdr.source.toUInt64, payload, dnp3Pdu_eq_ok_iff.mpr ⟨hdr, hextract, rfl⟩, ?_, ?_⟩
  · intro hnil
    rw [hnil, List.length_nil] at hlen
    omega
  · rw [hpayload, hlen]
  · omega

theorem sealsEachFrame_modbus_iff {keyStore : KeyStore} {frames reads : List (List UInt8)}
    (hframes : ∀ frame ∈ frames, Modbus.IsFrame frame) (hreads : ∀ r ∈ reads, r ≠ [])
    (hbytes : reads.flatten = frames.flatten) (counters : SequenceCounter) :
    SealsEachFrame modbusPdu frames (handleIngressModbus H keyStore reads counters).1 ↔
      reads = frames ∧ IngressReady .modbusTcp modbusPdu keyStore counters frames := by
  refine sealsEachFrame_iff ?_ (fun frame hframe => (hframes frame hframe).spec) hreads hbytes
    counters
  intro frame d pdu h
  obtain ⟨hdr, hextract, -⟩ := modbusPdu_eq_ok_iff.mp h
  exact (Modbus.length_of_extractPdu hextract).2.1

theorem sealsEachFrame_dnp3_iff {keyStore : KeyStore} {frames reads : List (List UInt8)}
    (hframes : ∀ frame ∈ frames, Dnp3.IsFrame frame) (hreads : ∀ r ∈ reads, r ≠ [])
    (hbytes : reads.flatten = frames.flatten) (counters : SequenceCounter) :
    SealsEachFrame dnp3Pdu frames (handleIngressDnp3 H keyStore reads counters).1 ↔
      reads = frames ∧ IngressReady .dnp3 dnp3Pdu keyStore counters frames := by
  refine sealsEachFrame_iff ?_ (fun frame hframe => (hframes frame hframe).spec) hreads hbytes
    counters
  intro frame d payload h
  obtain ⟨hdr, hextract, -⟩ := dnp3Pdu_eq_ok_iff.mp h
  exact (Dnp3.length_of_extractPayload hextract).2.1

/-! ## Main result -/

/-- However the bytes of a list of frames are cut into reads, the handlers seal one PDU for each
frame, in order and for its device, exactly when every read returned one whole frame, the key
store has a key for every device of the connection and no device runs out of numbers. -/
theorem ingress_seals_each_frame_iff (H : Hmac) (keyStore : KeyStore) (counters : SequenceCounter)
    (frames reads : List (List UInt8)) (hreads : ∀ r ∈ reads, r ≠ [] ∧ r.length ≤ 4096)
    (hbytes : reads.flatten = frames.flatten) :
    ((∀ frame ∈ frames, Modbus.IsFrame frame ∧ frame.length ≤ 4096) →
      (SealsEachFrame modbusPdu frames (handleIngressModbus H keyStore reads counters).1 ↔
        reads = frames ∧ IngressReady .modbusTcp modbusPdu keyStore counters frames)) ∧
    ((∀ frame ∈ frames, Dnp3.IsFrame frame ∧ frame.length ≤ 4096) →
      (SealsEachFrame dnp3Pdu frames (handleIngressDnp3 H keyStore reads counters).1 ↔
        reads = frames ∧ IngressReady .dnp3 dnp3Pdu keyStore counters frames)) := by
  have hne : ∀ r ∈ reads, r ≠ [] := fun r hr => (hreads r hr).1
  constructor
  · intro hframes
    exact sealsEachFrame_modbus_iff (fun frame h => (hframes frame h).1) hne hbytes counters
  · intro hframes
    exact sealsEachFrame_dnp3_iff (fun frame h => (hframes frame h).1) hne hbytes counters

/-- A read-holding-registers request with transaction number `t` for unit 1. -/
def readRequest (t : UInt8) : List UInt8 := [0, t, 0, 0, 0, 6, 1, 3, 0, 0, 0, 10]

theorem isFrame_readRequest (t : UInt8) : Modbus.IsFrame (readRequest t) :=
  ⟨⟨Modbus.u16FromBe (readRequest t) 0, 6, 1⟩, [1, 3, 0, 0, 0, 10], rfl, rfl⟩

theorem isFrame_readRequests : ∀ frame ∈ [readRequest 1, readRequest 2],
    Modbus.IsFrame frame ∧ frame.length ≤ 4096 := by
  intro frame hframe
  rcases List.mem_pair.mp hframe with rfl | rfl
  · exact ⟨isFrame_readRequest 1, by decide⟩
  · exact ⟨isFrame_readRequest 2, by decide⟩

/-- Two requests that arrive in two reads are both sealed. -/
theorem ingress_seals_two_requests :
    SealsEachFrame modbusPdu [readRequest 1, readRequest 2]
      (handleIngressModbus zeroHmac (fun _ => .ok zeroWrap.key) [readRequest 1, readRequest 2]
        .new).1 := by
  refine ((ingress_seals_each_frame_iff zeroHmac (fun _ => .ok zeroWrap.key) .new
    [readRequest 1, readRequest 2] [readRequest 1, readRequest 2] (by decide) rfl).1
      isFrame_readRequests).mpr ⟨rfl, fun _ _ _ _ => ⟨_, rfl⟩, ?_⟩
  intro d
  have hcount := List.count_le_length (a := d)
    (l := [readRequest 1, readRequest 2].filterMap (deviceOf modbusPdu))
  have hlen := List.length_filterMap_le (deviceOf modbusPdu) [readRequest 1, readRequest 2]
  have hzero : (SequenceCounter.new.lastSent (.modbusTcp, d)).toNat = 0 := rfl
  simp only [List.length_cons, List.length_nil] at hlen
  omega

/-- Two requests that arrive in one read: the second is lost. -/
theorem ingress_loses_coalesced_request :
    ¬ ((∀ frame ∈ [readRequest 1, readRequest 2],
        Modbus.IsFrame frame ∧ frame.length ≤ 4096) →
      (∀ r ∈ [readRequest 1 ++ readRequest 2], r ≠ [] ∧ r.length ≤ 4096) →
      [readRequest 1 ++ readRequest 2].flatten = [readRequest 1, readRequest 2].flatten →
      SealsEachFrame modbusPdu [readRequest 1, readRequest 2]
        (handleIngressModbus zeroHmac (fun _ => .ok zeroWrap.key)
          [readRequest 1 ++ readRequest 2] .new).1) := by
  intro h
  have hiff := @sealsEachFrame_modbus_iff zeroHmac (fun _ => .ok zeroWrap.key)
    [readRequest 1, readRequest 2] [readRequest 1 ++ readRequest 2]
    (fun frame h => (isFrame_readRequests frame h).1) (by decide) rfl .new
  have hsame := (hiff.mp (h isFrame_readRequests (by decide) rfl)).1
  exact absurd hsame (by decide)

end Napqes.Rust
