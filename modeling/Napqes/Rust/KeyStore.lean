import Napqes.Rust.Key

/-!
# The key file (`rust/src/ot_frame.rs:201-260`)

A key file is a JSON object of device ids and keys. Reading the file and its JSON is outside the
model: `load_from_file` starts from the entries in the order in which the deserialised map is
iterated. The integer parsers are those of the standard library, which take a sign in front of the
digits.
-/

namespace Napqes.Rust

/-! ## Integers from strings -/

/-- `char::to_digit`. -/
def toDigit (radix : Nat) (c : Char) : Option Nat :=
  let digit :=
    if '0' ≤ c ∧ c ≤ '9' then some (c.toNat - '0'.toNat)
    else if 'a' ≤ c ∧ c ≤ 'z' then some (c.toNat - 'a'.toNat + 10)
    else if 'A' ≤ c ∧ c ≤ 'Z' then some (c.toNat - 'A'.toNat + 10)
    else none
  digit.filter (· < radix)

/-- The digits of `from_str_radix`; a value of `bound` or more is an overflow. -/
def fromDigits (radix bound : Nat) : Str → Nat → Option Nat
  | [], result => some result
  | c :: src, result => do
      let x ← toDigit radix c
      if result * radix + x < bound then fromDigits radix bound src (result * radix + x) else none

/-- `from_str_radix` of an unsigned type with the values below `bound`: an optional `+` and at least
one digit. -/
def fromStrRadix (radix bound : Nat) (src : Str) : Option Nat :=
  match src with
  | [] => none
  | ['+'] => none
  | '+' :: digits => fromDigits radix bound digits 0
  | digits => fromDigits radix bound digits 0

/-- `str::parse::<u64>`. -/
def parseU64 (src : Str) : Option Nat := fromStrRadix 10 (2 ^ 64) src

/-! ## `FileKeyStore` -/

/-- `FileKeyEntry` (`ot_frame.rs:216-220`). -/
structure FileKeyEntry where
  primes : List UInt64
  skHex : Str
  deriving DecidableEq

/-- `str::is_ascii`. -/
def isAscii (s : Str) : Bool := s.all (·.toNat < 128)

/-- `parse_sk_hex` (`ot_frame.rs:222-232`); the string is ASCII where it is sliced, so a byte offset
counts characters. -/
def parseSkHex (hex : Str) : RustM String (FixedBytes skSize) :=
  if hex.asBytes.length ≠ 2 * skSize ∨ !isAscii hex then err "sk_hex must be 64 hex characters"
  else do
    let sk ← (List.range skSize).mapM fun i =>
      match fromStrRadix 16 256 ((hex.drop (2 * i)).take 2) with
      | some b => (.ok (UInt8.ofNat b) : RustM String UInt8)
      | none => err "sk_hex is not valid hex"
    return FixedBytes.ofList skSize sk

/-- The map of a `FileKeyStore` (`ot_frame.rs:212-214`). -/
abbrev FileKeyStore := Nat → Option NapqesKey

/-- `HashMap::insert`: an earlier key of the device is replaced. -/
def FileKeyStore.insert (data : FileKeyStore) (id : Nat) (key : NapqesKey) : FileKeyStore :=
  fun device => if device = id then some key else data device

/-- The body of the loop of `load_from_file` up to the insertion (`ot_frame.rs:241-247`). -/
def loadEntry (k : Str) (v : FileKeyEntry) : RustM String (Nat × NapqesKey) := do
  let device := String.ofList k
  let id ← (match parseU64 k with
    | some id => .ok id
    | none => err s!"key store: device id '{device}' is not a u64")
  let sk ← mapErr (fun e => s!"key store: device {id}: {e}") (parseSkHex v.skHex)
  let key ← mapErr (fun e => s!"key store: device {id}: {e}")
    (NapqesKey.new (v.primes.map UInt64.toNat) sk)
  return (id, key)

/-- The loop of `load_from_file` (`ot_frame.rs:240-249`). -/
def loadEntries : List (Str × FileKeyEntry) → FileKeyStore → RustM String FileKeyStore
  | [], data => return data
  | (k, v) :: raw, data => do
      let (id, key) ← loadEntry k v
      loadEntries raw (data.insert id key)

/-- `FileKeyStore::load_from_file` (`ot_frame.rs:235-251`), from the iteration of the map on. -/
def loadFromFile (raw : List (Str × FileKeyEntry)) : RustM String FileKeyStore :=
  loadEntries raw fun _ => none

/-- `FileKeyStore::load` (`ot_frame.rs:254-260`). -/
def FileKeyStore.load (data : FileKeyStore) (deviceId : Nat) : RustM String NapqesKey :=
  match data deviceId with
  | some key => .ok key
  | none => err s!"no key for device_id {deviceId}"

end Napqes.Rust
