import Napqes.Agreement
import Napqes.C.Proofs.StreamSeal
import Napqes.Python.Proofs.StreamV8Encrypt
import Napqes.Rust.Proofs.OtFrame
import Napqes.Rust.Proofs.StreamEncrypt

/-!
# The ports agree on the v8 stream format

Under a given nonce the stream encryptors of Rust, Python and C compute `sealStream`. Rust counts
its chunks with `checked_add` and Python with integers that stop fitting their field; C counts
modulo `2^32`, so it is compared below that.
-/

namespace Napqes

section
variable {H : Hmac} {mathSqrt : Nat → Nat} {primes : List Nat}

/-- `encrypt_stream_ae_v8_with_nonce` of a valid key: the stream of the format or an `Err`. -/
theorem encryptStreamAeV8WithNonce_cases (hrust : Rust.validateKey primes = .ok ⟨⟩)
    (sk : FixedBytes 32) (nonce : FixedBytes 16) (aad : List UInt8) (f : Nat) (message : Str) :
    ((1 ≤ f ∧ f ≤ 16384 ∧ (pieces f message.codepoints).length < 2 ^ 32) ∧
      Rust.encryptStreamAeV8WithNonce H message primes sk nonce aad f =
        .ok (sealStream H primes (Rust.deriveFormatSubkey H sk Rust.formatStreamAeV8) aad f nonce
          message.codepoints)) ∨
    ¬ (1 ≤ f ∧ f ≤ 16384 ∧ (pieces f message.codepoints).length < 2 ^ 32) ∧
      ∃ e, Rust.encryptStreamAeV8WithNonce H message primes sk nonce aad f = .error (.err e) := by
  have hkey := (Rust.validateKey_iff primes).mp hrust
  rw [Rust.encryptStreamAeV8WithNonce, hrust, ok_bind]
  by_cases hf : 1 ≤ f ∧ f ≤ 16384
  · rw [(Rust.validateStreamV8Frame_iff f).mpr hf, ok_bind,
      Rust.encryptStreamAeV8Inner_eq hkey hf]
    by_cases hcount : (pieces f message.codepoints).length < 2 ^ 32
    · rw [if_pos hcount]
      exact Or.inl ⟨⟨hf.1, hf.2, hcount⟩, rfl⟩
    · rw [if_neg hcount]
      exact Or.inr ⟨fun h => hcount h.2.2, _, rfl⟩
  · refine Or.inr ⟨fun h => hf ⟨h.1, h.2.1⟩, ?_⟩
    rw [Rust.validateStreamV8Frame, if_pos (by rw [Rust.streamAeV8MaxFrame]; omega)]
    exact ⟨_, rfl⟩

theorem encryptStreamAeV8_python_agree (hrust : Rust.validateKey primes = .ok ⟨⟩)
    (hpy : Python.validateKey mathSqrt primes = .ok ⟨⟩) (sk : FixedBytes 32)
    (nonce : FixedBytes 16) (aad : Slice) (f : Nat) (message : Str) :
    Agree (fun _ => True) id
      (Rust.encryptStreamAeV8WithNonce H message primes sk nonce aad.bytes f)
      (Python.joined (Python.encryptStreamAeV8WithNonce H mathSqrt message.codepoints primes
        sk.toList nonce.toList aad.bytes f)) := by
  have hkey := (Rust.validateKey_iff primes).mp hrust
  have hscalar := message.isScalar_of_mem_codepoints
  have hiff := @Python.joined_encryptStreamAeV8_eq_ok_iff H primes aad.bytes nonce mathSqrt hkey
    hpy sk message.codepoints (fun c hc => (hscalar c hc).1) f
  rw [Int.toNat_natCast] at hiff
  rcases @encryptStreamAeV8WithNonce_cases H primes hrust sk nonce aad.bytes f message with
    ⟨hfits, hok⟩ | ⟨hno, e, herr⟩
  · refine Or.inl ⟨_, hok, (hiff _).mpr ⟨?_, rfl⟩⟩
    exact ⟨⟨hfits.1, hfits.2.1⟩, hscalar, hfits.2.2, aad.length_lt⟩
  · refine Or.inr ⟨e, ?_⟩
    cases hrun : Python.joined (Python.encryptStreamAeV8WithNonce H mathSqrt message.codepoints
        primes sk.toList nonce.toList aad.bytes f) with
    | error e' => exact ⟨e', herr, rfl, trivial⟩
    | ok stream =>
        obtain ⟨hsealed, -⟩ := (hiff stream).mp hrun
        exact absurd ⟨hsealed.frame_range.1, hsealed.frame_range.2, hsealed.count_lt⟩ hno

theorem encryptStreamV8Impl_agree (hrust : Rust.validateKey primes = .ok ⟨⟩) (sk : FixedBytes 32)
    (nonce : FixedBytes 16) (aad : List UInt8) (f : Nat) {bytes : List UInt8}
    (hbytes : ∀ b ∈ bytes, b ≠ 0) (hcount : chunkCount bytes.length f < 2 ^ 32)
    (rest : List UInt8) :
    Agree (· = .null) id
      (Rust.encryptStreamAeV8WithNonce H (Rust.latin1 bytes) primes sk nonce aad f)
      (C.encryptStreamV8Impl H (bytes ++ 0 :: rest) (primes.map UInt64.ofNat) sk nonce aad
        f).outcome := by
  have hkey := (Rust.validateKey_iff primes).mp hrust
  have hprimes := C.primesNat_ofNat hkey
  have hckey : KeyValid (C.primesNat (primes.map UInt64.ofNat)) := by rwa [hprimes]
  have hcps := Rust.codepoints_latin1 bytes
  rcases @encryptStreamAeV8WithNonce_cases H primes hrust sk nonce aad f (Rust.latin1 bytes) with
    ⟨hfits, hok⟩ | ⟨hno, e, herr⟩
  · rw [hcps] at hfits hok
    refine Or.inl ⟨_, hok, ?_⟩
    rw [C.encryptStreamV8Impl_outcome hckey ⟨hfits.1, hfits.2.1⟩ sk hbytes rest hfits.2.2, hprimes]
    rfl
  · refine Or.inr ⟨e, .null, herr, ?_, rfl⟩
    have hrange : f < 1 ∨ f > C.streamAeV8MaxFrame := by
      rw [C.streamAeV8MaxFrame]
      by_contra hin
      refine hno ⟨by omega, by omega, ?_⟩
      rw [length_pieces (by omega), hcps, List.length_map]
      exact hcount
    have hvalid : ¬ (!C.validateKey (primes.map UInt64.ofNat)) = true := by
      simp [(C.validateKey_iff _).mpr hckey]
    rw [C.encryptStreamV8Impl, if_neg hvalid, if_pos hrange]
    rfl

end

/-- The v8 stream format is one function in all ports: under the same nonce Rust and Python encrypt
every message in every frame size to the same bytes, and C encrypts every string of non-zero bytes
of fewer than `2^32` chunks, read as Latin-1, to those bytes, inside the memory it allocates; each
port fails where the others fail. -/
theorem v8_stream_ports_agree (H : Hmac) (mathSqrt : Nat → Nat) (primes : List Nat)
    (hrust : Rust.validateKey primes = .ok ⟨⟩)
    (hpy : Python.validateKey mathSqrt primes = .ok ⟨⟩) (sk : FixedBytes 32)
    (nonce : FixedBytes 16) (aad : Slice) (f : Nat) :
    (∀ message : Str,
      Agree (fun _ => True) id
        (Rust.encryptStreamAeV8WithNonce H message primes sk nonce aad.bytes f)
        (Python.joined (Python.encryptStreamAeV8WithNonce H mathSqrt message.codepoints primes
          sk.toList nonce.toList aad.bytes f))) ∧
    (∀ bytes rest : List UInt8, (∀ b ∈ bytes, b ≠ 0) → chunkCount bytes.length f < 2 ^ 32 →
      Agree (· = .null) id
        (Rust.encryptStreamAeV8WithNonce H (Rust.latin1 bytes) primes sk nonce aad.bytes f)
        (C.encryptStreamV8Impl H (bytes ++ 0 :: rest) (primes.map UInt64.ofNat) sk nonce aad.bytes
          f).outcome) :=
  ⟨encryptStreamAeV8_python_agree hrust hpy sk nonce aad f, fun _ rest hbytes hcount =>
    encryptStreamV8Impl_agree hrust sk nonce aad.bytes f hbytes hcount rest⟩

theorem v8_stream_ports_agree_two_bytes :
    Agree (· = .null) id
      (Rust.encryptStreamAeV8WithNonce zeroHmac (Rust.latin1 [0x68, 0xE9]) [1000003]
        (.ofList 32 []) (.ofList 16 [1]) [7] 2)
      (C.encryptStreamV8Impl zeroHmac [0x68, 0xE9, 0] [1000003] (.ofList 32 []) (.ofList 16 [1])
        [7] 2).outcome :=
  (v8_stream_ports_agree zeroHmac Nat.sqrt [1000003] Rust.validateKey_1000003
    Python.validateKey_1000003 (.ofList 32 []) (.ofList 16 [1]) ⟨[7], by decide⟩ 2).2
      [0x68, 0xE9] [] (by simp) (by decide)

end Napqes
