import Napqes.Rust.Block
import Napqes.Rust.KeyStore

/-!
# The software integrity test (`rust/src/self_test.rs:651-662, 902-956`,
`rust/src/bin/napqes_integrity.rs`)

INT-2 compares the HMAC of the executable with the hexadecimal digits in `<executable>.hmac`, which
`napqes_integrity` has written after linking. A file system gives a path its bytes or an error; no
two paths are one file.
-/

namespace Napqes.Rust

/-! ## Strings and files -/

/-- The characters up to a byte offset and those from it on; `none` inside a character. -/
def splitBytes : Str → Nat → Option (Str × Str)
  | s, 0 => some ([], s)
  | [], _ + 1 => none
  | c :: s, n + 1 =>
      if c.utf8Size ≤ n + 1 then
        (splitBytes s (n + 1 - c.utf8Size)).map fun (front, rest) => (c :: front, rest)
      else none

/-- `&s[start..stop]` for `start <= stop`. -/
def sliceStr {ε : Type} (s : Str) (start stop : Nat) : RustM ε Str :=
  match splitBytes s start with
  | none => panics "start byte index is not a char boundary"
  | some (_, rest) =>
      match splitBytes rest (stop - start) with
      | none => panics "end byte index is not a char boundary"
      | some (middle, _) => .ok middle

/-- `char::is_whitespace`. -/
def isWhitespace (c : Char) : Bool :=
  let n := c.toNat
  (0x09 ≤ n && n ≤ 0x0D) || (0x2000 ≤ n && n ≤ 0x200A) ||
    [0x20, 0x85, 0xA0, 0x1680, 0x2028, 0x2029, 0x202F, 0x205F, 0x3000].contains n

/-- `str::trim`. -/
def trim (s : Str) : Str :=
  ((s.dropWhile isWhitespace).reverse.dropWhile isWhitespace).reverse

/-- `std::io::ErrorKind::NotFound` and the others. -/
inductive IoError where
  | notFound
  | other
  deriving DecidableEq, Repr

/-- The bytes of an `OsStr`. -/
abbrev Path := List UInt8

/-- What `std::fs::read` gives. -/
abbrev FileSystem := Path → Except IoError (List UInt8)

/-- `String::from_utf8`. -/
def fromUtf8 (bytes : List UInt8) : Option Str := bytes.toByteArray.utf8Decode?.map Array.toList

/-- `std::fs::read_to_string`. -/
def readToString (fs : FileSystem) (path : Path) : Except IoError Str :=
  match fs path with
  | .ok bytes =>
      match fromUtf8 bytes with
      | some s => .ok s
      | none => .error .other
  | .error e => .error e

/-! ## INT-2 -/

/-- The variants of `SelfTestError` that INT-2 meets (`self_test.rs:618-625`). -/
inductive IntegrityError where
  | integrityCheckFailed
  | internalError (msg : String)
  deriving DecidableEq, Repr

/-- The closure of `decode_hex` (`self_test.rs:657-660`). -/
def hexByteAt (s : Str) (i : Nat) : RustM IntegrityError UInt8 := do
  let digits ← sliceStr s (2 * i) (2 * i + 2)
  match fromStrRadix 16 256 digits with
  | some b => .ok (UInt8.ofNat b)
  | none => err (.internalError "invalid hex digit")

/-- `s.replace(['\n', ' '], "")`. -/
def withoutBlanks (s : Str) : Str := s.filter fun c => !(c == '\n' || c == ' ')

/-- `decode_hex` (`self_test.rs:651-662`). -/
def decodeHex (s : Str) : RustM IntegrityError (List UInt8) :=
  let s := withoutBlanks s
  if s.asBytes.length % 2 ≠ 0 then err (.internalError "hex string has odd length")
  else (List.range (s.asBytes.length / 2)).mapM (hexByteAt s)

/-- `INTEGRITY_KEY` (`self_test.rs:917`). -/
def integrityKey : List UInt8 := Str.asBytes "NAPQES module software integrity v1".toList

/-- `integrity_tag` (`self_test.rs:920-922`). -/
def integrityTag (H : Hmac) (moduleImage : List UInt8) : FixedBytes 32 := H integrityKey moduleImage

/-- `integrity_sidecar_path` (`self_test.rs:925-929`). -/
def integritySidecarPath (module : Path) : Path := module ++ Str.asBytes ".hmac".toList

section
variable (H : Hmac)

/-- `verify_module_integrity` (`self_test.rs:933-946`). -/
def verifyModuleIntegrity (fs : FileSystem) (module : Path) : RustM IntegrityError Bool :=
  match readToString fs (integritySidecarPath module) with
  | .error .notFound => .ok false
  | .error .other => err .integrityCheckFailed
  | .ok reference => do
      let expected ← mapErr (fun _ => .integrityCheckFailed) (decodeHex (trim reference))
      match fs module with
      | .error _ => err .integrityCheckFailed
      | .ok image =>
          if expected.length = 32 ∧ ctEqBytes expected (integrityTag H image).toList then .ok true
          else err .integrityCheckFailed

/-- `software_integrity_check` (`self_test.rs:948-955`); `fipsIntegrity` is the feature. -/
def softwareIntegrityCheck (fipsIntegrity : Bool) (fs : FileSystem) (currentExe : Option Path) :
    RustM IntegrityError Unit :=
  match currentExe with
  | none => err .integrityCheckFailed
  | some exe => do
      if ← verifyModuleIntegrity H fs exe then .ok ⟨⟩
      else if fipsIntegrity then err .integrityCheckFailed
      else .ok ⟨⟩

/-! ## `napqes_integrity` -/

/-- The string `hex` of `main`. -/
def hexText (bytes : List UInt8) : Str := bytes.flatMap fun b => (hex02 b).toList

/-- `format!("{}\n", hex)` for the digits of a tag. -/
def sidecarText (tag : List UInt8) : Str := hexText tag ++ ['\n']

/-- `ExitCode::SUCCESS`, `ExitCode::FAILURE` and `ExitCode::from(2)`. -/
inductive ExitCode where
  | success
  | failure
  | usage
  deriving DecidableEq, Repr

variable (write : FileSystem → Path → List UInt8 → Bool × FileSystem)

/-- The loop of `main` (`napqes_integrity.rs:28-42`). `write` is `std::fs::write`: whether it
succeeded, and what it leaves behind. -/
def integrityLoop : List Path → FileSystem → ExitCode × FileSystem
  | [], fs => (.success, fs)
  | p :: paths, fs =>
      match fs p with
      | .error _ => (.failure, fs)
      | .ok image =>
          match write fs (integritySidecarPath p) (sidecarText (integrityTag H image)).asBytes with
          | (true, fs) => integrityLoop paths fs
          | (false, fs) => (.failure, fs)

/-- `main` (`napqes_integrity.rs:22-44`). -/
def integrityMain (paths : List Path) (fs : FileSystem) : ExitCode × FileSystem :=
  if paths = [] then (.usage, fs) else integrityLoop H write paths fs

end

end Napqes.Rust
