import Napqes.C.Proofs.StreamEncrypt
import Napqes.Python.SubNonces
import Napqes.Rust.SubNonces

/-!
# Sub-nonces of v8 streams in the three ports

A chunk index has 32 bits. The Rust encryptor checks it before it increments, the Python encryptor
fails where it serialises it, and the C encryptor lets it wrap.
-/

namespace Napqes

/-- A completed run makes a derivation for each of its chunks, no two chunks of a run get one index,
and a stream of more than `2^32 - 1` chunks is refused. -/
structure NoSubNonceReuse {ε α : Type} (run : Gen ε SubNonceUse α) (chunks : Nat)
    (refused : ε → Prop) : Prop where
  derived : ∀ a, run.outcome = .ok a → ∀ c < chunks, ∃ u ∈ run.yielded, u.chunk = c
  distinct : DistinctIndices run.yielded
  limit : 2 ^ 32 - 1 < chunks → ∃ e, run.outcome = .error e ∧ refused e

namespace C

variable {H : Hmac} {primes : List UInt64} {sk : FixedBytes skSize} {nonce : FixedBytes nonceSize}
  {aad : List UInt8} {f : Nat}

/-- The C encryptor never refuses a stream for its length. -/
theorem noSubNonceReuse_iff (hf : 1 ≤ f ∧ f ≤ 16384) {bytes : List UInt8}
    (hbytes : ∀ b ∈ bytes, b ≠ 0) (rest : List UInt8) :
    NoSubNonceReuse (encryptStreamV8Impl H (bytes ++ 0 :: rest) primes sk nonce aad f)
        (chunkCount bytes.length f) (· = .null) ↔
      (validateKey primes = true → chunkCount bytes.length f ≤ 2 ^ 32 - 1) := by
  by_cases hvalid : validateKey primes = true
  case neg =>
    rw [encryptStreamV8Impl, if_pos (by simpa using hvalid)]
    refine iff_of_true ⟨?_, distinctIndices_nil, fun _ => ⟨.null, rfl, rfl⟩⟩
      (fun h => absurd h hvalid)
    intro stream hstream
    cases hstream
  case pos =>
    obtain ⟨huses, hout⟩ := @encryptStreamV8Impl_spec H primes aad f sk nonce
      ((validateKey_iff primes).mp hvalid) hf bytes hbytes rest
    refine ⟨?_, ?_⟩
    · intro hreuse _
      by_contra hlong
      obtain ⟨e, he, rfl⟩ := hreuse.limit (Nat.lt_of_not_le hlong)
      rcases hout with ⟨stream, hok, -⟩ | ⟨⟨why, hundef⟩, -⟩
      · rw [hok] at he
        cases he
      · rw [hundef] at he
        cases he
    · intro hshort
      have hle := hshort hvalid
      refine ⟨?_, distinctIndices_of_eq ?_, fun hlong => by omega⟩
      · intro stream hstream c hc
        rcases hout with ⟨-, -, hall⟩ | ⟨⟨why, hundef⟩, -⟩
        · exact ⟨_, hall c hc, rfl⟩
        · rw [hundef] at hstream
          cases hstream
      intro u hu
      obtain ⟨hidx, hlt⟩ := huses u hu
      have hchunk := lt_chunkCount hf.1 hlt
      rw [hidx, Nat.mod_eq_of_lt (by omega)]

end C

/-- Every derivation hands out the index that it hashes. The Rust and Python encryptors reuse no
sub-nonce and refuse what would need one; the C encryptor does so exactly for the streams within the
limit, and for those it refuses for their key. -/
theorem noSubNonceReuse (H : Hmac) (f : Nat) (hf : 1 ≤ f ∧ f ≤ 16384) :
    (∀ skFmt nonce : List UInt8,
      HandsOutIndex H skFmt nonce FixedBytes.toList
        (@Rust.deriveStreamV8SubNonceUse (Rust.Fault String) H skFmt nonce) ∧
      HandsOutIndex H skFmt nonce id (Python.deriveStreamV8SubNonceUse H skFmt nonce) ∧
      HandsOutIndex H skFmt nonce FixedBytes.toList
        (C.deriveStreamV8SubNonceUse H skFmt nonce)) ∧
    (∀ (plaintext : Str) primes sk nonce aad,
      (Rust.encryptStreamUses H plaintext primes sk nonce aad f).outcome =
        Rust.encryptStreamAeV8WithNonce H plaintext primes sk nonce aad f ∧
      NoSubNonceReuse (Rust.encryptStreamUses H plaintext primes sk nonce aad f)
        (chunkCount plaintext.length f) (fun e => ∃ msg, e = .err msg)) ∧
    (∀ mathSqrt (plaintext : List Nat) primes sk nonce aad,
      (Python.encryptStreamUses H mathSqrt plaintext primes sk nonce aad f).outcome =
        (Python.encryptStreamAeV8WithNonce H mathSqrt plaintext primes sk nonce aad f).outcome ∧
      NoSubNonceReuse (Python.encryptStreamUses H mathSqrt plaintext primes sk nonce aad f)
        (chunkCount plaintext.length f) (fun _ => True)) ∧
    ∀ (bytes : List UInt8) primes sk nonce aad, (∀ b ∈ bytes, b ≠ 0) →
      (NoSubNonceReuse (C.encryptStreamV8Impl H (bytes ++ [0]) primes sk nonce aad f)
          (chunkCount bytes.length f) (· = .null) ↔
        (C.validateKey primes = true → chunkCount bytes.length f ≤ 2 ^ 32 - 1)) := by
  refine ⟨?_, ?_, ?_, ?_⟩
  · intro skFmt nonce
    exact ⟨Rust.handsOutIndex_deriveStreamV8SubNonceUse H skFmt nonce,
      Python.handsOutIndex_deriveStreamV8SubNonceUse H skFmt nonce,
      C.handsOutIndex_deriveStreamV8SubNonceUse H skFmt nonce⟩
  · intro plaintext primes sk nonce aad
    have hcovers := @Rust.encryptStreamUses_covers H primes nonce aad f plaintext sk hf.1
    refine ⟨Rust.outcome_encryptStreamUses plaintext sk,
      fun a ha c hc => (hcovers a ha).2 c (Nat.zero_le c) hc,
      Rust.distinctIndices_encryptStreamUses plaintext sk, ?_⟩
    intro hlong
    obtain ⟨msg, herr⟩ := @Rust.encryptStreamAeV8WithNonce_eq_err H primes nonce aad f plaintext sk
      hlong
    rw [Rust.outcome_encryptStreamUses]
    exact ⟨_, herr, msg, rfl⟩
  · intro mathSqrt plaintext primes sk nonce aad
    have hspec := @Python.encryptStreamUses_spec H primes nonce aad mathSqrt plaintext sk f
    have hcovers := @Python.encryptStreamUses_covers H primes nonce aad mathSqrt plaintext sk f
    refine ⟨Python.outcome_encryptStreamUses mathSqrt plaintext sk f,
      fun a ha c hc => (hcovers a ha).2 c (Nat.zero_le c) hc,
      distinctIndices_of_eq hspec.yielded, ?_⟩
    intro hlong
    obtain ⟨e, he⟩ := @Python.encryptStreamAeV8WithNonce_eq_error H primes nonce aad mathSqrt
      plaintext sk f hlong
    rw [Python.outcome_encryptStreamUses]
    exact ⟨e, he, trivial⟩
  · intro bytes primes sk nonce aad hbytes
    exact C.noSubNonceReuse_iff hf hbytes []

theorem noSubNonceReuse_two_chunks :
    NoSubNonceReuse (C.encryptStreamV8Impl zeroHmac [97, 98, 0] [1000003] (.ofList 32 [])
      (.ofList 16 []) [] 1) 2 (· = .null) := by
  have hiff := (noSubNonceReuse zeroHmac 1 (by decide)).2.2.2 [97, 98] [1000003] (.ofList 32 [])
    (.ofList 16 []) [] (by simp)
  exact hiff.mpr fun _ => by decide

/-- A message of `2^32 + 1` bytes, in frames of one byte: the C encryptor completes the stream, and
its first and its last chunk get index 0. -/
theorem subNonceReuse_wrap :
    ∃ run, run = C.encryptStreamV8Impl zeroHmac (List.replicate (2 ^ 32 + 1) 97 ++ [0]) [1000003]
        (.ofList 32 []) (.ofList 16 []) [] 1 ∧
      (∃ stream, run.outcome = .ok stream) ∧ ⟨0, 0⟩ ∈ run.yielded ∧ ⟨2 ^ 32, 0⟩ ∈ run.yielded ∧
      ¬ NoSubNonceReuse run (chunkCount (2 ^ 32 + 1) 1) (· = .null) := by
  refine ⟨_, rfl, ?_⟩
  have hkey : KeyValid (C.primesNat [1000003]) := keyValid_1000003
  have hspec := (@C.encryptStreamV8Impl_spec zeroHmac [1000003] [] 1 (.ofList 32 [])
    (.ofList 16 []) hkey (by decide) (List.replicate (2 ^ 32 + 1) 97)
    (fun b hb => by rw [List.eq_of_mem_replicate hb]; decide) []).2
  rw [List.length_replicate] at hspec
  rcases hspec with ⟨stream, hok, huses⟩ | ⟨-, hbig⟩
  · have hfirst := huses 0 (by decide)
    have hlast := huses (2 ^ 32) (by decide)
    refine ⟨⟨stream, hok⟩, hfirst, hlast, ?_⟩
    intro hreuse
    exact hreuse.distinct _ hfirst _ hlast (by decide) rfl
  · rw [C.streamTotal_eq (by decide) (by decide)] at hbig
    exact absurd hbig (Nat.lt_irrefl _)

end Napqes
