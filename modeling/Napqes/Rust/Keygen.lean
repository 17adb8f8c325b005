import Napqes.Rust.Key
import Napqes.Misc.BinarySearch

/-!
# Generation of prime tuples (`rust/src/lib.rs:250-306, 1637-1655`)

The sampler `rand::distributions::Uniform` and the bytes of `sk` are arguments: `draws i` is the
number the sampler gives at its `i`-th call. One call is made in each turn of the loop.
-/

namespace Napqes.Rust

variable {ε : Type}

/-- `KEYGEN_DRAWS_PER_PRIME` (`lib.rs:306`). -/
def keygenDrawsPerPrime : Nat := 4096

/-- The variables of the loop of `generate_prime_numbers`. -/
structure Keygen where
  primes : List Nat
  sorted : List Nat
  attempts : Nat
  deriving DecidableEq, Repr

/-- `Vec::insert`, which panics at a position beyond the end. -/
def vecInsert (xs : List Nat) (pos x : Nat) : RustM ε (List Nat) :=
  let len := xs.length
  if pos ≤ len then .ok (xs.insertIdx pos x)
  else panics s!"insertion index (is {pos}) should be <= len (is {len})"

/-- One turn of the loop (`lib.rs:283-291`) on the number drawn. -/
def Keygen.step (s : Keygen) (num : Nat) : RustM ε Keygen := do
  match binarySearch s.sorted num with
  | .ok _ => return { s with attempts := ← u64 (s.attempts + 1) }
  | .error pos =>
      if isPrime num then
        let sorted ← vecInsert s.sorted pos num
        let primes := s.primes ++ [num]
        return { primes, sorted, attempts := ← u64 (s.attempts + 1) }
      else return { s with attempts := ← u64 (s.attempts + 1) }

theorem Keygen.attempts_of_step {s s' : Keygen} {num : Nat}
    (h : (s.step num : RustM ε Keygen) = .ok s') : s'.attempts = s.attempts + 1 := by
  have hcount : ∀ {n : Nat}, (u64 (s.attempts + 1) : RustM ε Nat) = .ok n → n = s.attempts + 1 := by
    intro n hn
    unfold u64 at hn
    split at hn
    case isTrue => exact (Except.ok.inj hn).symm
    case isFalse => cases hn
  unfold Keygen.step at h
  split at h
  case h_1 =>
    obtain ⟨n, hn, h⟩ := bind_eq_ok.mp h
    cases h
    exact hcount hn
  case h_2 =>
    split at h
    case isTrue =>
      obtain ⟨_, -, h⟩ := bind_eq_ok.mp h
      obtain ⟨n, hn, h⟩ := bind_eq_ok.mp h
      cases h
      exact hcount hn
    case isFalse =>
      obtain ⟨n, hn, h⟩ := bind_eq_ok.mp h
      cases h
      exact hcount hn

/-- The loop of `generate_prime_numbers` (`lib.rs:280-291`). -/
def Keygen.loop (draws : Nat → Nat) (count maxAttempts : Nat) (s : Keygen) : RustM ε Keygen :=
  if s.primes.length < count ∧ s.attempts < maxAttempts then
    match _h : s.step (draws s.attempts) with
    | .ok s' => loop draws count maxAttempts s'
    | .error e => .error e
  else .ok s
termination_by maxAttempts - s.attempts
decreasing_by
  have := Keygen.attempts_of_step _h
  omega

/-- `generate_prime_numbers` (`lib.rs:250-303`). -/
def generatePrimeNumbers (draws : Nat → Nat) (count minVal maxVal : Nat) :
    RustM String (List Nat) :=
  if count = 0 ∨ count > maxKeyElements then
    err (s!"generate_prime_numbers: count {count} is outside " ++
      s!"[1, MAX_KEY_ELEMENTS = {maxKeyElements}]")
  else if maxVal ≤ minVal then
    err s!"generate_prime_numbers: empty range [{minVal}, {maxVal}]"
  else do
    -- `saturating_mul`
    let maxAttempts := min (max count 1 * keygenDrawsPerPrime) (2 ^ 64 - 1)
    let s ← Keygen.loop draws count maxAttempts ⟨[], [], 0⟩
    if s.primes.length < count then
      err (s!"generate_prime_numbers: could not find {count} distinct primes in " ++
        s!"[{minVal}, {maxVal}] within {maxAttempts} draws; the range is too narrow or too " ++
        "prime-poor for the requested count.")
    else return s.primes

/-- `generate_v8_key` (`lib.rs:1637-1655`); `sk` are the bytes `fill_bytes` draws. -/
def generateV8Key (draws : Nat → Nat) (sk : FixedBytes skSize) (count minVal maxVal : Nat) :
    RustM String (List Nat × FixedBytes skSize) :=
  if ¬ (minKeyPrime ≤ minVal ∧ maxVal ≤ maxKeyPrime) then
    err (s!"generate_v8_key: range [{minVal}, {maxVal}] lies outside " ++
      "[MIN_KEY_PRIME, MAX_KEY_PRIME]")
  else do
    let primes ← generatePrimeNumbers draws count minVal maxVal
    return (primes, sk)

end Napqes.Rust
