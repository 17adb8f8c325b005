import Napqes.Format.Tokens
import Napqes.Rust.Padding

/-!
# The v8 block format

A block ciphertext is `nonce || body || tag`. `sealBlock` is the one ciphertext the format
gives to a message in a block of a chosen size; `OpensBlock` lists what makes a byte string
open to a message. The ports are compared with these two.
-/

namespace Napqes

open Rust (syntheticNonce padded unpadMessage authTagInput ReachableBlock)

section
variable (H : Hmac) (primes : List Nat) (skFmt : List UInt8)

/-- The masked body of a message in a block of size `b`. -/
def blockBody (aad : List UInt8) (message : Str) (b : Nat) : List UInt8 :=
  let nonce := syntheticNonce H skFmt aad message.asBytes
  sealTokens H skFmt nonce.toList primes (padded H message.codepoints skFmt nonce.toList b)

/-- What the tag of a message in a block of size `b` is computed on. -/
def blockTagInput (aad : List UInt8) (message : Str) (b : Nat) : List UInt8 :=
  authTagInput aad (syntheticNonce H skFmt aad message.asBytes).toList
    (blockBody H primes skFmt aad message b)

/-- The ciphertext of a message in a block of size `b`. -/
def sealBlock (aad : List UInt8) (message : Str) (b : Nat) : List UInt8 :=
  (syntheticNonce H skFmt aad message.asBytes).toList ++ blockBody H primes skFmt aad message b ++
    (H skFmt (blockTagInput H primes skFmt aad message b)).toList

variable (verify : List UInt8 → List UInt8 → List UInt8 → Bool)

/-- A byte string opens to a codepoint sequence when it splits into a nonce, a body for a
reachable block size and a tag that verifies, and the body reads back as that sequence,
padded. -/
structure OpensBlock (aad ciphertext nonce body tag : List UInt8) (b : Nat)
    (cps out : List Nat) : Prop where
  split : ciphertext = nonce ++ body ++ tag
  length_nonce : nonce.length = 16
  length_tag : tag.length = 32
  reachable : ReachableBlock b
  length_body : body.length = (b + 2) * 160
  tag_ok : verify skFmt (authTagInput aad nonce body) tag = true
  opened : openTokens H skFmt nonce primes body (b + 2) = some cps
  unpadded : unpadMessage cps = .ok out

/-- Some split of the byte string opens to `out`. -/
def BlockOpensTo (aad ciphertext : List UInt8) (out : List Nat) : Prop :=
  ∃ nonce body tag b cps,
    OpensBlock H primes skFmt verify aad ciphertext nonce body tag b cps out

end

variable {H : Hmac} {primes : List Nat} {skFmt : List UInt8}

theorem length_sealBlock (aad : List UInt8) {message : Str} {b : Nat}
    (h : message.codepoints.length < b) :
    (sealBlock H primes skFmt aad message b).length = 48 + 160 * (b + 2) := by
  simp only [sealBlock, blockBody, List.length_append, FixedBytes.length_toList,
    length_sealTokens, Rust.length_padded H skFmt _ h, Rust.nonceSize]
  omega

theorem Str.isScalar_of_mem_codepoints (message : Str) : ∀ c ∈ message.codepoints, IsScalar c := by
  intro c hc
  obtain ⟨ch, -, rfl⟩ := List.mem_map.mp hc
  exact isScalar_toNat ch

/-- A sealed message opens to itself when its own tag verifies. -/
theorem blockOpensTo_sealBlock {verify : List UInt8 → List UInt8 → List UInt8 → Bool}
    {aad : List UInt8} {message : Str} {b : Nat}
    (hverify : verify skFmt (blockTagInput H primes skFmt aad message b)
      (H skFmt (blockTagInput H primes skFmt aad message b)).toList = true)
    (hkey : KeyValid primes) (hb : ReachableBlock b) (hlt : message.codepoints.length < b)
    (hlen : message.codepoints.length ≤ Rust.maxPlaintextCodepoints) :
    BlockOpensTo H primes skFmt verify aad (sealBlock H primes skFmt aad message b)
      message.codepoints := by
  let nonce := (syntheticNonce H skFmt aad message.asBytes).toList
  let cps := padded H message.codepoints skFmt nonce b
  have hcps : ∀ c ∈ cps, IsScalar c :=
    Rust.isScalar_of_mem_padded H skFmt nonce b message.isScalar_of_mem_codepoints
  have hlencps : cps.length = b + 2 := Rust.length_padded H skFmt nonce hlt
  refine ⟨nonce, blockBody H primes skFmt aad message b,
    (H skFmt (blockTagInput H primes skFmt aad message b)).toList, b, cps, ?_⟩
  exact
    { split := rfl
      length_nonce := FixedBytes.length_toList _
      length_tag := FixedBytes.length_toList _
      reachable := hb
      length_body := by
        rw [← hlencps]
        exact length_sealTokens H skFmt nonce primes cps
      tag_ok := hverify
      opened := by
        rw [← hlencps]
        exact openTokens_sealTokens H skFmt nonce hkey hcps
      unpadded := Rust.unpadMessage_padded H skFmt nonce b hlen }

/-- The split of a long enough ciphertext at both ends. -/
theorem split_ciphertext (ciphertext : List UInt8) (h : 48 ≤ ciphertext.length) :
    ∃ nonce masked tag : List UInt8, ciphertext = nonce ++ masked ++ tag ∧
      nonce.length = 16 ∧ tag.length = 32 := by
  refine ⟨ciphertext.take 16, (ciphertext.take (ciphertext.length - 32)).drop 16,
    ciphertext.drop (ciphertext.length - 32), ?_, ?_, ?_⟩
  · have htake : ciphertext.take 16 = (ciphertext.take (ciphertext.length - 32)).take 16 := by
      rw [List.take_take, Nat.min_eq_left (by omega)]
    rw [htake, List.take_append_drop, List.take_append_drop]
  · simp only [List.length_take]
    omega
  · simp only [List.length_drop]
    omega

/-- The split of a ciphertext is determined by the widths of its ends. -/
theorem OpensBlock.split_unique {verify : List UInt8 → List UInt8 → List UInt8 → Bool}
    {aad nonce body tag nonce' body' tag' : List UInt8} {b : Nat} {cps out : List Nat}
    (h : OpensBlock H primes skFmt verify aad (nonce' ++ body' ++ tag') nonce body tag b cps out)
    (hnonce : nonce'.length = 16) (htag : tag'.length = 32) :
    nonce' = nonce ∧ body' = body ∧ tag' = tag := by
  obtain ⟨hfront, rfl⟩ := List.append_inj' h.split (htag.trans h.length_tag.symm)
  obtain ⟨rfl, rfl⟩ := List.append_inj hfront (hnonce.trans h.length_nonce.symm)
  exact ⟨rfl, rfl, rfl⟩

/-- What a ciphertext written as nonce, body and tag opens to. -/
theorem blockOpensTo_append_iff {verify : List UInt8 → List UInt8 → List UInt8 → Bool}
    {aad nonce body tag : List UInt8} {out : List Nat} (hnonce : nonce.length = 16)
    (htag : tag.length = 32) :
    BlockOpensTo H primes skFmt verify aad (nonce ++ body ++ tag) out ↔
      verify skFmt (authTagInput aad nonce body) tag = true ∧
        ∃ b cps, ReachableBlock b ∧ body.length = (b + 2) * 160 ∧
          openTokens H skFmt nonce primes body (b + 2) = some cps ∧
          unpadMessage cps = .ok out := by
  constructor
  · rintro ⟨nonce', body', tag', b, cps, h⟩
    obtain ⟨rfl, rfl, rfl⟩ := h.split_unique hnonce htag
    exact ⟨h.tag_ok, b, cps, h.reachable, h.length_body, h.opened, h.unpadded⟩
  · rintro ⟨hverify, b, cps, hb, hlen, hcps, hout⟩
    exact ⟨nonce, body, tag, b, cps, ⟨rfl, hnonce, htag, hb, hlen, hverify, hcps, hout⟩⟩

/-- A ciphertext holds at least a nonce and a tag. -/
theorem BlockOpensTo.le_length {verify : List UInt8 → List UInt8 → List UInt8 → Bool}
    {aad ciphertext : List UInt8} {out : List Nat}
    (h : BlockOpensTo H primes skFmt verify aad ciphertext out) : 48 ≤ ciphertext.length := by
  obtain ⟨nonce, body, tag, b, cps, h⟩ := h
  rw [h.split, List.length_append, List.length_append, h.length_nonce, h.length_tag]
  omega

/-- A byte string opens to at most one codepoint sequence. -/
theorem BlockOpensTo.unique {verify : List UInt8 → List UInt8 → List UInt8 → Bool}
    {aad ciphertext : List UInt8} {out out' : List Nat}
    (h : BlockOpensTo H primes skFmt verify aad ciphertext out)
    (h' : BlockOpensTo H primes skFmt verify aad ciphertext out') : out = out' := by
  obtain ⟨nonce, body, tag, b, cps, hopen⟩ := h
  obtain ⟨nonce', body', tag', b', cps', hopen'⟩ := h'
  obtain rfl := hopen.split
  obtain ⟨rfl, rfl, rfl⟩ := hopen'.split_unique hopen.length_nonce hopen.length_tag
  have hb : b = b' := by
    have := hopen.length_body.symm.trans hopen'.length_body
    omega
  subst hb
  obtain rfl := Option.some.inj (hopen.opened.symm.trans hopen'.opened)
  simpa using hopen.unpadded.symm.trans hopen'.unpadded

end Napqes
