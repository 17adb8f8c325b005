import Napqes.Misc.ReadExact
import Napqes.Rust.OtFrame

/-!
# The gateway link (`rust/src/bin/ls_gateway.rs:272-385`)

The writer `forward_envelope` and the reader `handle_egress` of the link between the two
gateways. A connection is the segments in which its bytes arrive. Connection errors other than
the end of the stream, and the log lines, are not modelled.
-/

namespace Napqes.Rust

/-- `forward_envelope` (`ls_gateway.rs:379-385`): the bytes written to the connection. -/
def forwardEnvelope (data : List UInt8) : List UInt8 :=
  let lenPrefix := beBytes 4 (data.length % 2 ^ 32)
  lenPrefix ++ data

/-- `peek_device_id` (`ls_gateway.rs:357-362`). -/
def peekDeviceId (buf : List UInt8) : Option UInt64 :=
  if buf.length < envelopeHeaderSize then none
  else if buf.take 2 ≠ envelopeMagic then none
  else some (UInt64.ofNat (beNat ((buf.drop 3).take 8)))

/-- `MAX_BLOB` (`ls_gateway.rs:283`): the largest v8 bucket ciphertext. -/
def maxBlob : Nat := 48 + 160 * ((1 <<< 16) + 2)

/-- One round of the read loop of `handle_egress`. -/
inductive EgressRead where
  /-- A whole envelope was read. -/
  | envelope (buf : List UInt8) (rest : Segments)
  /-- The stream ended in the header; `unread` had arrived. -/
  | eof (unread : List UInt8)
  /-- The declared length is above `MAX_BLOB`. -/
  | oversized (blobLen : Nat)
  /-- The stream ended in the blob. -/
  | truncated (unread : List UInt8)

/-- The header, then the declared blob length (`ls_gateway.rs:286-308`). -/
def readEnvelope (stream : Segments) : EgressRead :=
  match readExact envelopeHeaderSize stream with
  | .error unread => .eof unread
  | .ok (header, stream) =>
      let blobLen := beNat ((header.drop 19).take 4)
      if blobLen > maxBlob then .oversized blobLen
      else
        match readExact blobLen stream with
        | .error unread => .truncated (header ++ unread)
        | .ok (blob, stream) => .envelope (header ++ blob) stream

/-- A round consumes the bytes of the envelope it returns. -/
theorem readEnvelope_eq_envelope {stream rest : Segments} {buf : List UInt8}
    (h : readEnvelope stream = .envelope buf rest) :
    stream.flatten = buf ++ rest.flatten ∧ envelopeHeaderSize ≤ buf.length := by
  rw [readEnvelope] at h
  split at h
  case h_1 => cases h
  case h_2 header stream' hheader =>
    simp only at h
    split at h
    case isTrue => cases h
    case isFalse =>
      split at h
      case h_1 => cases h
      case h_2 blob stream'' hblob =>
        obtain ⟨rfl, rfl⟩ := EgressRead.envelope.inj h
        obtain ⟨hlen, hsplit⟩ := readExact_eq_ok hheader
        rw [hsplit, (readExact_eq_ok hblob).2, List.append_assoc, List.length_append, hlen]
        exact ⟨rfl, Nat.le_add_right _ _⟩

/-- Why the read loop ended. -/
inductive EgressExit where
  | eof (unread : List UInt8)
  | oversized (blobLen : Nat)
  | truncated (unread : List UInt8)
  deriving DecidableEq, Repr

/-- The read loop of `handle_egress` (`ls_gateway.rs:274-308`): the buffers it hands on as
envelopes, in order, and why it ended. What is done with a buffer never ends the loop. -/
def egressLoop (stream : Segments) : List (List UInt8) × EgressExit :=
  match _hread : readEnvelope stream with
  | .envelope buf rest =>
      let (bufs, exit) := egressLoop rest
      (buf :: bufs, exit)
  | .eof unread => ([], .eof unread)
  | .oversized blobLen => ([], .oversized blobLen)
  | .truncated unread => ([], .truncated unread)
termination_by stream.flatten.length
decreasing_by
  obtain ⟨hsplit, hlen⟩ := readEnvelope_eq_envelope _hread
  rw [hsplit, List.length_append]
  simp only [envelopeHeaderSize] at hlen
  omega

end Napqes.Rust
