import Napqes.Basic
import Napqes.Misc.Except
import Napqes.Misc.TrialDivision

/-!
# Exceptions, integers and keys of the Python port (`napqes.py:80-280`)

A Python call returns or raises. Integers are unbounded; `to_bytes` raises when a value does
not fit its width. A `str` is its sequence of code points, which may contain surrogates.
-/

namespace Napqes.Python

/-- The exceptions the modelled functions can raise. -/
inductive PyErr where
  | valueError (msg : String)
  | overflowError (msg : String)
  | zeroDivisionError (msg : String)
  | indexError (msg : String)
  | unicodeEncodeError (cp : Nat)
  deriving DecidableEq, Repr

/-- `isinstance(e, ValueError)`. -/
def PyErr.IsValueError : PyErr → Prop
  | .valueError _ | .unicodeEncodeError _ => True
  | .overflowError _ | .zeroDivisionError _ | .indexError _ => False

/-- A computation that may raise. -/
abbrev PyM (α : Type) := Except PyErr α

variable {α : Type}

def raise (e : PyErr) : PyM α := .error e

/-- `raise ValueError(msg)`. -/
def valueError (msg : String) : PyM α := raise (.valueError msg)

/-- `n.to_bytes(w, 'big')`. -/
def toBytes (w n : Nat) : PyM (List UInt8) :=
  if n < 256 ^ w then .ok (beBytes w n) else raise (.overflowError "int too big to convert")

theorem toBytes_of_lt {w n : Nat} (h : n < 256 ^ w) : toBytes w n = .ok (beBytes w n) := if_pos h

theorem toBytes_of_not_lt {w n : Nat} (h : ¬ n < 256 ^ w) :
    toBytes w n = .error (.overflowError "int too big to convert") := if_neg h

theorem toBytes_eq_ok_iff {w n : Nat} {bs : List UInt8} :
    toBytes w n = .ok bs ↔ n < 256 ^ w ∧ bs = beBytes w n := by
  rw [toBytes]
  split
  case isTrue h => rw [Except.ok.injEq, and_iff_right h, eq_comm]
  case isFalse h => exact iff_of_false (fun hok => by cases hok) (fun hlt => h hlt.1)

/-! ## Returning or raising `ValueError` -/

/-- The call returns or raises a `ValueError`. -/
abbrev RaisesValueError (x : PyM α) : Prop := FailsOnly PyErr.IsValueError x

theorem raisesValueError_valueError (msg : String) : RaisesValueError (valueError msg : PyM α) :=
  failsOnly_error_iff.mpr trivial

theorem not_raisesValueError_overflowError (msg : String) :
    ¬ RaisesValueError (.error (.overflowError msg) : PyM α) := failsOnly_error_iff.mp

/-! ## Text -/

/-- `s.encode("utf-8")`; a surrogate cannot be encoded. -/
def encodeUtf8 : List Nat → PyM (List UInt8)
  | [] => .ok []
  | cp :: cps =>
      match charFromU32 cp with
      | some ch => do
          let rest ← encodeUtf8 cps
          return String.utf8EncodeChar ch ++ rest
      | none => raise (.unicodeEncodeError cp)

/-- A string of scalar values is encoded as its characters are. -/
theorem encodeUtf8_codepoints (s : Str) : encodeUtf8 s.codepoints = .ok s.asBytes := by
  induction s with
  | nil => rfl
  | cons ch s ih =>
      rw [Str.codepoints] at ih
      simp only [Str.codepoints, List.map_cons, encodeUtf8, charFromU32_toNat, ih, ok_bind]
      rfl

/-- `chr(c)`. -/
def chr (c : Nat) : PyM Nat :=
  if c ≤ 0x10FFFF then .ok c else valueError "chr() arg not in range(0x110000)"

/-! ## Keys -/

def minKeyPrime : Nat := 1000000
def maxKeyPrime : Nat := 14999999
def maxKeyElements : Nat := 128

section
variable (mathSqrt : Nat → Nat)

/-- `is_prime` (`napqes.py:166-177`); `mathSqrt n` is the value of `int(math.sqrt(n))`. -/
def isPrime (n : Nat) : Bool :=
  if n < 2 then false
  else if n == 2 then true
  else if n % 2 == 0 then false
  else oddScan n (mathSqrt n) 3

/-- The first loop of `_validate_key` (`napqes.py:256-267`). -/
def checkKeyRange (entry : Nat × Nat) : PyM PUnit :=
  let (k, i) := entry
  if k < minKeyPrime then
    valueError (s!"Key element at index {i} ({k}) is below the minimum of {minKeyPrime}. " ++
      "Use generate_prime_numbers() to generate a secure key.")
  else if k > maxKeyPrime then
    valueError s!"Key element at index {i} ({k}) exceeds MAX_KEY_PRIME ({maxKeyPrime})."
  else pure ⟨⟩

/-- The second loop of `_validate_key` (`napqes.py:268-280`), with the set `seen`. -/
def checkKeyElements : List Nat → List (Nat × Nat) → PyM PUnit
  | _, [] => pure ⟨⟩
  | seen, (k, i) :: rest =>
      if !isPrime mathSqrt k then
        valueError (s!"Key element at index {i} ({k}) is not prime. " ++
          "All key elements must be prime integers greater than 1.")
      else if k ∈ seen then
        valueError (s!"Key element {k} at index {i} is a duplicate. " ++
          "All key elements must be distinct.")
      else checkKeyElements (k :: seen) rest

/-- `_validate_key` (`napqes.py:237-280`). -/
def validateKey (key : List Nat) : PyM PUnit :=
  let count := key.length
  if key.isEmpty then valueError "Key must be a non-empty list of integers."
  else if key.length > maxKeyElements then
    valueError s!"Key has {count} elements, exceeding MAX_KEY_ELEMENTS ({maxKeyElements})."
  else do
    key.zipIdx.forM checkKeyRange
    checkKeyElements mathSqrt [] key.zipIdx

end

theorem validateKey_1000003 : validateKey Nat.sqrt [1000003] = .ok ⟨⟩ := by
  decide +kernel

end Napqes.Python
