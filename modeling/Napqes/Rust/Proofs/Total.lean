import Napqes.Rust.Proofs.Block

/-!
# The Rust block functions do not panic

Under a valid key every call returns: encryption always, decryption on every byte string that
is short enough for the keystream counter, whatever its bytes are.
-/

namespace Napqes.Rust

variable {H : Hmac} {primes : List Nat} {verify : TagCheck}

/-! ## Encryption -/

theorem returns_blockSize (profile : PadProfile) (n : Nat) : Returns (profile.blockSize n) := by
  unfold PadProfile.blockSize
  split
  case isTrue => exact .err _
  case isFalse =>
    cases profile with
    | bucket => exact .ok _
    | coarse g =>
        simp only
        split
        · exact .err _
        · exact .ok _
    | frame f =>
        simp only
        split
        · exact .err _
        · split
          · exact .err _
          · exact .ok _

theorem returns_encryptBytesV8Core (hkey : KeyValid primes) (message : Str)
    (sk : FixedBytes skSize) (aad : List UInt8) (padProfile : PadProfile) :
    Returns (encryptBytesV8Core H message primes sk aad padProfile) := by
  rw [encryptBytesV8Core]
  cases hb : padProfile.blockSize message.codepoints.length with
  | ok b =>
      rw [encryptBytesV8CoreInner_eq hkey _ _ _ _ hb]
      exact .ok _
  | error e =>
      have hreturns := returns_blockSize padProfile message.codepoints.length
      rw [hb] at hreturns
      rw [encryptBytesV8CoreInner]
      simp only [hb, error_bind]
      split
      · exact .err _
      · intro msg h
        cases h
        exact hreturns msg rfl

/-! ## Decryption -/

theorem returns_unpadMessage (cps : List Nat) : Returns (unpadMessage cps) := by
  unfold unpadMessage
  split
  case h_1 =>
    split
    · exact .err _
    · simp only
      split
      · exact .err _
      · exact .ok _
  case h_2 => exact .err _

theorem returns_collectChars (message : Nat → String) (cps : List Nat) :
    Returns (collectChars message cps) := by
  induction cps with
  | nil => exact .ok _
  | cons c cps ih =>
      unfold collectChars
      cases charFromU32 c with
      | none => exact Returns.bind (.err _) fun ch h => by cases h
      | some ch => exact Returns.bind (.ok ch) fun ch _ => Returns.bind ih fun rest _ => .ok _

/-- The decoding loop returns on every token list. -/
theorem returns_readTokensV8 (errors : TokenErrors) (hkey : KeyValid primes)
    (skFmt nonce : List UInt8) (theta : Nat) (tokens : List Nat) (realCount realIdx ctPos : Nat)
    (codepoints : List Nat) :
    Returns (readTokensV8 H errors primes skFmt nonce theta tokens realCount realIdx ctPos
      codepoints) := by
  induction hrest : realCount - realIdx generalizing realIdx ctPos codepoints with
  | zero =>
      rw [readTokensV8, if_neg (by omega)]
      exact .ok _
  | succ rest ih =>
      rw [readTokensV8, if_pos (by omega)]
      simp only
      split
      case isTrue =>
        rw [keyAt_eq_ok hkey, ok_bind, deriveAddend_eq_ok H skFmt nonce hkey, ok_bind]
        split
        · exact .err _
        · split
          · exact ih _ _ _ (by omega)
          · exact .err _
      case isFalse => exact .err _

theorem returns_decryptCoreV8 (hkey : KeyValid primes) (nonce : List UInt8) (cypher : List Nat)
    (kb : List UInt8) : Returns (decryptCoreV8 H nonce cypher primes kb) := by
  rw [decryptCoreV8]
  simp only
  split
  · exact .err _
  · split
    · exact Returns.bind (returns_readTokensV8 _ hkey _ _ _ _ _ _ _ _)
        fun padded _ => returns_unpadMessage padded
    · exact .err _

/-- Decryption returns on every byte string below the reach of the keystream counter. -/
theorem returns_decryptBytesV8Core (hkey : KeyValid primes) (ciphertext : List UInt8)
    (hlen : ciphertext.length ≤ 32 * (2 ^ 32 - 1)) (sk : FixedBytes skSize) (aad : List UInt8) :
    Returns (decryptBytesV8Core H verify ciphertext primes sk aad) := by
  rw [decryptBytesV8Core]
  simp only
  split
  · exact .err _
  · split
    · exact .err _
    · rw [decryptBytesV8CoreInner]
      simp only
      split
      case isTrue => contradiction
      case isFalse =>
        split
        · refine Returns.bind ?_ fun ks _ => Returns.bind ?_ fun tokens _ =>
            Returns.bind (returns_decryptCoreV8 hkey _ _ _) fun cps _ => returns_collectChars _ cps
          · rw [varintKeystream_eq_ok H _ _ (by
              simp only [List.length_drop, List.length_take]
              omega)]
            exact .ok _
          · apply Returns.mapErr
            unfold fixedDecodeTokens
            simp only
            split
            · exact .err _
            · exact .ok _
        · exact .err _

end Napqes.Rust
