import Napqes.C.Proofs.Block
import Napqes.Python.Proofs.Block
import Napqes.Rust.Proofs.Total

/-!
# The ports agree on the v8 block format

Rust, Python and C compute `sealBlock`, and Rust and Python accept what `BlockOpensTo` describes.
What remains is that each port fails in its own regular way where the others fail: Rust with an
`Err` and not a panic, C with `NULL`.
-/

namespace Napqes

variable {ε ε' α β : Type}

/-- The two calls return the same value, up to `f`, or both fail: the Rust call with an `Err`,
the other one with an error that counts as a rejection. -/
def Agree (rejected : ε' → Prop) (f : α → β) (x : Rust.RustM ε α) (y : Except ε' β) : Prop :=
  (∃ a, x = .ok a ∧ y = .ok (f a)) ∨ ∃ e e', x = .error (.err e) ∧ y = .error e' ∧ rejected e'

/-- Calls that succeed on the same inputs with the same values agree. -/
theorem agree_of_iff {f : α → β} {x : Rust.RustM ε α} {y : Except ε' β} (hx : Rust.Returns x)
    (hsome : ∀ a, x = .ok a → y = .ok (f a)) (hback : ∀ b, y = .ok b → ∃ a, x = .ok a) :
    Agree (fun _ => True) f x y := by
  rcases hx.ok_or_err with ⟨a, ha⟩ | ⟨e, he⟩
  · exact Or.inl ⟨a, ha, hsome a ha⟩
  · refine Or.inr ⟨e, ?_⟩
    cases hy : y with
    | ok b =>
        obtain ⟨a, ha⟩ := hback b hy
        rw [he] at ha
        cases ha
    | error e' => exact ⟨e', he, rfl, trivial⟩

theorem BlockOpensTo.isScalar {H : Hmac} {primes : List Nat} {skFmt : List UInt8}
    {verify : List UInt8 → List UInt8 → List UInt8 → Bool} {aad ciphertext : List UInt8}
    {out : List Nat} (h : BlockOpensTo H primes skFmt verify aad ciphertext out) :
    ∀ c ∈ out, IsScalar c := by
  obtain ⟨nonce, body, tag, b, cps, hopen⟩ := h
  intro c hc
  exact isScalar_of_readTokens H skFmt nonce hopen.opened c
    (Rust.mem_of_unpadMessage hopen.unpadded c hc)

section
variable {H : Hmac} {mathSqrt : Nat → Nat} {primes : List Nat}

theorem encryptBytesV8_agree (hrust : Rust.validateKey primes = .ok ⟨⟩)
    (hpy : Python.validateKey mathSqrt primes = .ok ⟨⟩) (sk : FixedBytes 32) (aad : Slice)
    (message : Str) (profile : Rust.PadProfile) :
    Agree (fun _ => True) id
      (Rust.encryptBytesV8WithProfile H message primes sk aad.bytes profile)
      (Python.encryptBytesV8 H mathSqrt message.codepoints primes sk.toList aad.bytes
        (.ofRust profile)) := by
  have hkey := (Rust.validateKey_iff primes).mp hrust
  have hpyIff := Python.encryptBytesV8_eq_ok_iff (H := H) hpy hkey message sk aad.length_lt profile
  have hrustIff := Rust.encryptBytesV8Core_eq_ok_iff (H := H) hkey message sk aad.bytes profile
  rw [Rust.encryptBytesV8WithProfile, hrust, ok_bind]
  apply agree_of_iff (Rust.returns_encryptBytesV8Core hkey _ _ _ _)
  · intro c hc
    exact (hpyIff c).mpr ((hrustIff c).mp hc)
  · intro c hc
    exact ⟨c, (hrustIff c).mpr ((hpyIff c).mp hc)⟩

theorem decryptBytesV8_agree (hrust : Rust.validateKey primes = .ok ⟨⟩)
    (hpy : Python.validateKey mathSqrt primes = .ok ⟨⟩) (sk : FixedBytes 32) (aad : Slice)
    (ciphertext : List UInt8) (hlen : ciphertext.length < 2 ^ 36) :
    Agree (fun _ => True) Str.codepoints
      (Rust.decryptBytesV8 H ciphertext primes sk aad.bytes)
      (Python.decryptBytesV8 H mathSqrt ciphertext primes sk.toList aad.bytes) := by
  have hkey := (Rust.validateKey_iff primes).mp hrust
  have hpyIff := Python.decryptBytesV8_eq_ok_iff (H := H) hpy hkey ciphertext hlen sk
    aad.length_lt
  have hrustIff := @Rust.decryptBytesV8Core_eq_ok_iff H primes (Rust.hmacVerify H) hkey
    ciphertext sk aad.bytes
  rw [Rust.decryptBytesV8, hrust, ok_bind]
  apply agree_of_iff (Rust.returns_decryptBytesV8Core hkey _ (by omega) _ _)
  · intro s hs
    exact (hpyIff _).mpr ((hrustIff s).mp hs)
  · intro cps hcps
    have hopen := (hpyIff cps).mp hcps
    obtain ⟨s, rfl⟩ := exists_codepoints hopen.isScalar
    exact ⟨s, (hrustIff s).mpr hopen⟩

theorem napqesEncryptBytesV8Profiled_agree (hrust : Rust.validateKey primes = .ok ⟨⟩)
    (sk : FixedBytes 32) (aad : List UInt8) {bytes : List UInt8} (hbytes : ∀ b ∈ bytes, b ≠ 0)
    (hlen : bytes.length ≤ 65535) (rest : List UInt8) (profile : Option C.PadProfile) :
    Agree (· = .null) id
      (Rust.encryptBytesV8WithProfile H (Rust.latin1 bytes) primes sk aad
        (C.PadProfile.toRust profile))
      (C.napqesEncryptBytesV8Profiled H (bytes ++ 0 :: rest) (primes.map UInt64.ofNat) sk aad
        profile) := by
  have hkey := (Rust.validateKey_iff primes).mp hrust
  have hprimes := C.primesNat_ofNat hkey
  have hrustIff := Rust.encryptBytesV8Core_eq_ok_iff (H := H) hkey (Rust.latin1 bytes) sk aad
    (C.PadProfile.toRust profile)
  have hret := Rust.returns_encryptBytesV8Core (H := H) hkey (Rust.latin1 bytes) sk aad
    (C.PadProfile.toRust profile)
  rw [Rust.length_codepoints_latin1] at hrustIff
  rw [Rust.encryptBytesV8WithProfile, hrust, ok_bind,
    C.napqesEncryptBytesV8Profiled_eq (by rw [hprimes]; exact hkey) hbytes hlen, hprimes]
  rcases hret.ok_or_err with ⟨c, hc⟩ | ⟨e, he⟩
  · obtain ⟨b, hb, rfl⟩ := (hrustIff c).mp hc
    exact Or.inl ⟨_, hc, by rw [hb]; rfl⟩
  · refine Or.inr ⟨e, .null, he, ?_, rfl⟩
    cases hb : (C.PadProfile.toRust profile).blockSize bytes.length with
    | error => rfl
    | ok b =>
        have := (hrustIff _).mpr ⟨b, hb, rfl⟩
        rw [he] at this
        cases this

end

/-- The v8 block format is one function in all ports: Rust and Python encrypt every message under
every profile to the same bytes and decrypt every byte string below `2^36` bytes to the same
codepoints, and C encrypts every string of up to 65535 non-zero bytes, read as Latin-1, to those
bytes; each port fails where the others fail. -/
theorem v8_block_ports_agree (H : Hmac) (mathSqrt : Nat → Nat) (primes : List Nat)
    (hrust : Rust.validateKey primes = .ok ⟨⟩)
    (hpy : Python.validateKey mathSqrt primes = .ok ⟨⟩) (sk : FixedBytes 32) (aad : Slice) :
    (∀ (message : Str) (profile : Rust.PadProfile),
      Agree (fun _ => True) id
        (Rust.encryptBytesV8WithProfile H message primes sk aad.bytes profile)
        (Python.encryptBytesV8 H mathSqrt message.codepoints primes sk.toList aad.bytes
          (.ofRust profile))) ∧
    (∀ ciphertext : List UInt8, ciphertext.length < 2 ^ 36 →
      Agree (fun _ => True) Str.codepoints
        (Rust.decryptBytesV8 H ciphertext primes sk aad.bytes)
        (Python.decryptBytesV8 H mathSqrt ciphertext primes sk.toList aad.bytes)) ∧
    (∀ (bytes rest : List UInt8) (profile : Option C.PadProfile), (∀ b ∈ bytes, b ≠ 0) →
      bytes.length ≤ 65535 →
      Agree (· = .null) id
        (Rust.encryptBytesV8WithProfile H (Rust.latin1 bytes) primes sk aad.bytes
          (C.PadProfile.toRust profile))
        (C.napqesEncryptBytesV8Profiled H (bytes ++ 0 :: rest) (primes.map UInt64.ofNat) sk
          aad.bytes profile)) :=
  ⟨encryptBytesV8_agree hrust hpy sk aad, decryptBytesV8_agree hrust hpy sk aad,
    fun _ rest profile hbytes hlen =>
      napqesEncryptBytesV8Profiled_agree hrust sk aad.bytes hbytes hlen rest profile⟩

theorem v8_block_ports_agree_two_bytes :
    Agree (· = .null) id
      (Rust.encryptBytesV8WithProfile zeroHmac (Rust.latin1 [0x68, 0xE9]) [1000003]
        (.ofList 32 []) [7] .bucket)
      (C.napqesEncryptBytesV8Profiled zeroHmac [0x68, 0xE9, 0] [1000003] (.ofList 32 []) [7]
        none) :=
  (v8_block_ports_agree zeroHmac Nat.sqrt [1000003] Rust.validateKey_1000003
    Python.validateKey_1000003 (.ofList 32 []) ⟨[7], by decide⟩).2.2 [0x68, 0xE9] [] none
      (by simp) (by decide)

end Napqes
