import Napqes.C.Key

/-!
# Generation of prime tuples in C (`C/napqes.c:45-51, 84-106`)

The outcomes of the calls of `secure_rand_bytes` are an argument: eight bytes, or a failure. A call
that needs more of them than it is given is still drawing. Beside each prime the model keeps the
outcome it was computed from, which the source does not. The warning about few elements has no
value to model.
-/

namespace Napqes.C

/-- What one call of `secure_rand_bytes` gives; a failure is `none`. -/
abbrev Outcome := Option (FixedBytes 8)

/-- `secure_rand_u64` (`napqes.c:45-51`). -/
def secureRandU64 : Outcome → UInt64
  | none => 0
  | some b => UInt64.ofNat (u64FromBe8 b.toList)

/-- The inner `do`-`while` of `napqes_generate_primes` (`napqes.c:96`): the first draw below
`limit`, and the outcomes behind it. -/
def drawBelow (limit : UInt64) : List Outcome → Option (UInt64 × Outcome × List Outcome)
  | [] => none
  | o :: rng =>
      let x := secureRandU64 o
      if x ≥ limit then drawBelow limit rng else some (x, o, rng)

/-- An element of `out`, with the outcome it was computed from. -/
structure Drawn where
  value : UInt64
  outcome : Outcome
  deriving DecidableEq

/-- The loop of `napqes_generate_primes` (`napqes.c:94-104`); the first argument is the number of
attempts left. -/
def generateLoop (count : Nat) (minVal span limit : UInt64) :
    Nat → List Outcome → List Drawn → Option (List Drawn)
  | 0, _, out => some out
  | attempts + 1, rng, out =>
      if out.length < count then
        match drawBelow limit rng with
        | none => none
        | some (x, o, rng) =>
            let num := minVal + x % span
            if !napqesIsPrime num then generateLoop count minVal span limit attempts rng out
            else if out.any (·.value == num) then
              generateLoop count minVal span limit attempts rng out
            else generateLoop count minVal span limit attempts rng (out ++ [⟨num, o⟩])
      else some out

/-- `napqes_generate_primes` (`napqes.c:84-106`): the returned number and `out`, or `none` while the
call is still drawing. -/
def napqesGeneratePrimes (count : Nat) (minVal maxVal : UInt64) (rng : List Outcome) :
    CM (Option (Int × List Drawn)) :=
  if maxVal ≤ minVal then .ok (some (-1, []))
  else
    let span := maxVal - minVal + 1
    if span = 0 then .error (.undefined "division by zero")
    else
      let limit := (UInt64.ofNat (2 ^ 64 - 1) / span) * span
      let maxAttempts := span * 4
      .ok ((generateLoop count minVal span limit maxAttempts.toNat rng []).map fun out =>
        (if out.length = count then 0 else -1, out))

end Napqes.C
