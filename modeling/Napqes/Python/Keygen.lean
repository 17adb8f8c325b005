import Napqes.Python.Block

/-!
# Generation of prime tuples in Python (`napqes.py:180-208, 1002-1017`)

The numbers that `secrets.randbelow` gives are an argument: `draws i` is that of its `i`-th call.
The counts and the ends of the range are integers. The warning about few elements has no value to
model.
-/

namespace Napqes.Python

/-- The exceptions of the generation. -/
inductive KeygenErr where
  | runtimeError (msg : String)
  | valueError (msg : String)
  deriving DecidableEq, Repr

section
variable (mathSqrt : Nat → Nat) (draws : Nat → Nat)

/-- `is_prime` of any integer; a negative one is below 2. -/
def isPrimeInt : Int → Bool
  | .ofNat n => isPrime mathSqrt n
  | .negSucc _ => false

/-- The `i`-th call of `secrets.randbelow`. -/
def randbelow (i : Nat) (bound : Int) : Except KeygenErr Int :=
  if bound ≤ 0 then .error (.valueError "Upper bound must be positive.") else .ok (draws i)

variable (count minVal maxVal : Int)

/-- The loop of `generate_prime_numbers` (`napqes.py:198-202`). -/
def generateLoop (maxAttempts : Int) (primes : List Int) (attempts : Nat) :
    Except KeygenErr (List Int) :=
  if (primes.length : Int) < count ∧ (attempts : Int) < maxAttempts then
    match randbelow draws attempts (maxVal - minVal + 1) with
    | .error e => .error e
    | .ok r =>
        let num := r + minVal
        if isPrimeInt mathSqrt num && num ∉ primes then
          generateLoop maxAttempts (primes ++ [num]) (attempts + 1)
        else generateLoop maxAttempts primes (attempts + 1)
  else .ok primes
termination_by (maxAttempts - attempts).toNat

/-- `generate_prime_numbers` (`napqes.py:180-208`). -/
def generatePrimeNumbers : Except KeygenErr (List Int) := do
  let maxAttempts := (maxVal - minVal) * 4
  let primes ← generateLoop mathSqrt draws count minVal maxVal maxAttempts [] 0
  if (primes.length : Int) < count then
    .error (.runtimeError (s!"Could not find {count} distinct primes in [{minVal}, {maxVal}] " ++
      s!"after {maxAttempts} attempts — widen the range."))
  else return primes

/-- `generate_v8_key` (`napqes.py:1002-1017`); `sk` are the bytes of `secrets.token_bytes`. -/
def generateV8Key (sk : FixedBytes skSize) :
    Except KeygenErr (List Int × FixedBytes skSize) := do
  let primes ← generatePrimeNumbers mathSqrt draws count minVal maxVal
  return (primes, sk)

end

end Napqes.Python
