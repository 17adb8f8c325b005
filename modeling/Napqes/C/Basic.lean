import Napqes.Basic
import Napqes.Misc.Except

/-!
# Results, bytes and words of the C port (`C/napqes.c:108-137, 238-254, 306-313, 512-527`)

A C call returns a value, reports failure (`NULL`, `-1` or `0`), has no defined result, or does
not end. Memory is not modelled: a pointer and a length are a list, allocations succeed, and
the pointers a function tests against `NULL` on entry are not `NULL`.
-/

namespace Napqes.C

/-- Why a call gave no value. -/
inductive Fault where
  | null
  | undefined (why : String)
  | diverges
  deriving DecidableEq, Repr

/-- A call that may give no value. -/
abbrev CM (α : Type) := Except Fault α

variable {α : Type}

/-- `return NULL`. -/
def null : CM α := .error .null

/-- The value of a call that is defined and ends: what it returns, or `NULL`. -/
def ofOption : Option α → CM α
  | some a => .ok a
  | none => null

@[simp] theorem ofOption_some (a : α) : ofOption (some a) = .ok a := rfl

@[simp] theorem ofOption_none : ofOption (none : Option α) = null := rfl

/-! ## Bytes -/

/-- `(uint8_t)(v & 0xFF)`. -/
def lowByte (v : Nat) : UInt8 := UInt8.ofNat (v &&& 0xFF)

@[simp] theorem lowByte_eq (v : Nat) : lowByte v = UInt8.ofNat v := by
  apply UInt8.toNat_inj.mp
  rw [lowByte, show (0xFF : Nat) = 2 ^ 8 - 1 from rfl, Nat.and_two_pow_sub_one_eq_mod]
  simp

/-- `be5_write` (`napqes.c:110-116`). -/
def be5Write (n : Nat) : List UInt8 :=
  [lowByte (n >>> 32), lowByte (n >>> 24), lowByte (n >>> 16), lowByte (n >>> 8), lowByte n]

/-- The four-byte initialisers of `napqes.c:214-219`, `:541-546`, `:1287-1292` and others. -/
def be4Write (n : Nat) : List UInt8 :=
  [lowByte (n >>> 24), lowByte (n >>> 16), lowByte (n >>> 8), lowByte n]

/-- The loops that fill a buffer of `w` bytes from its end, the low byte first. -/
def beWriteLoop : Nat → Nat → List UInt8
  | 0, _ => []
  | w + 1, v => beWriteLoop w (v >>> 8) ++ [lowByte v]

/-- `be_len_prefix` (`napqes.c:307-313`). -/
def beLenPrefix (n width : Nat) : List UInt8 := beWriteLoop width n

/-- `fixed_encode` (`napqes.c:514-519`). -/
def fixedEncode (n : Nat) : List UInt8 := beWriteLoop 8 n

/-- The loops that read eight bytes into a `uint64_t`. -/
def readBe8Loop (b : List UInt8) : Nat := (b.take 8).foldl (fun v x => v <<< 8 ||| x.toNat) 0

/-- `u64_from_be8` (`napqes.c:128-132`). -/
def u64FromBe8 (b : List UInt8) : Nat := readBe8Loop b

/-- `fixed_decode` (`napqes.c:521-527`). -/
def fixedDecode (b : List UInt8) : Nat := readBe8Loop b

/-- `u32_from_be4` (`napqes.c:134-137`); the callers pass at least four bytes. -/
def u32FromBe4 (b : List UInt8) : Nat :=
  (b.getD 0 0).toNat <<< 24 ||| (b.getD 1 0).toNat <<< 16 ||| (b.getD 2 0).toNat <<< 8 |||
    (b.getD 3 0).toNat

@[simp] theorem be5Write_eq (n : Nat) : be5Write n = beBytes 5 n := by
  simp [be5Write, beBytes, Nat.shiftRight_eq_div_pow]

@[simp] theorem be4Write_eq (n : Nat) : be4Write n = beBytes 4 n := by
  simp [be4Write, beBytes, Nat.shiftRight_eq_div_pow]

theorem beWriteLoop_eq (w n : Nat) : beWriteLoop w n = beBytes w n := by
  induction w generalizing n with
  | zero => rfl
  | succ w ih =>
      rw [beWriteLoop, ih, beBytes_succ_last, lowByte_eq, Nat.shiftRight_eq_div_pow]

@[simp] theorem beLenPrefix_eq (n width : Nat) : beLenPrefix n width = beBytes width n :=
  beWriteLoop_eq width n

@[simp] theorem fixedEncode_eq (n : Nat) : fixedEncode n = beBytes 8 n := beWriteLoop_eq 8 n

theorem readBe8Loop_eq (b : List UInt8) : readBe8Loop b = beNat (b.take 8) := by
  rw [readBe8Loop, foldl_shift_or_eq_beNat, Nat.zero_mul, Nat.zero_add]

@[simp] theorem u64FromBe8_eq (b : List UInt8) : u64FromBe8 b = beNat (b.take 8) :=
  readBe8Loop_eq b

@[simp] theorem fixedDecode_eq (b : List UInt8) : fixedDecode b = beNat (b.take 8) :=
  readBe8Loop_eq b

theorem u32FromBe4_eq {b : List UInt8} (h : 4 ≤ b.length) : u32FromBe4 b = beNat (b.take 4) := by
  match b, h with
  | b0 :: b1 :: b2 :: b3 :: rest, _ =>
      have h1 : b1.toNat < 256 := b1.toNat_lt
      have h2 : b2.toNat < 256 := b2.toNat_lt
      have h3 : b3.toNat < 256 := b3.toNat_lt
      have hfold := foldl_shift_or_eq_beNat [b0, b1, b2, b3] 0
      simp only [List.foldl_cons, List.foldl_nil, Nat.zero_shiftLeft, Nat.zero_or, Nat.zero_mul,
        Nat.zero_add, Nat.shiftLeft_or_distrib, ← Nat.shiftLeft_add] at hfold
      simpa [u32FromBe4] using hfold

/-! ## Wide products -/

/-- `mulhi64` (`napqes.c:241-254`) where the compiler has a 128-bit type. -/
def mulhi64 (a b : Nat) : Nat := (a * b) >>> 64

/-- The limb fallback of `mulhi64`. -/
def mulhi64Limbs (a b : UInt64) : UInt64 :=
  let aLo := a &&& 0xFFFFFFFF
  let aHi := a >>> 32
  let bLo := b &&& 0xFFFFFFFF
  let bHi := b >>> 32
  let pLl := aLo * bLo
  let pLh := aLo * bHi
  let pHl := aHi * bLo
  let pHh := aHi * bHi
  let mid := (pLl >>> 32) + (pLh &&& 0xFFFFFFFF) + (pHl &&& 0xFFFFFFFF)
  pHh + (pLh >>> 32) + (pHl >>> 32) + (mid >>> 32)

/-- A `uint64_t` product that must not wrap. -/
def mulNoWrap (a b : Nat) : Option Nat := if a * b < 2 ^ 64 then some (a * b) else none

/-- A `uint64_t` sum that must not wrap. -/
def addNoWrap (a b : Nat) : Option Nat := if a + b < 2 ^ 64 then some (a + b) else none

/-- The limb fallback of `mulhi64` with every product and every sum checked. -/
def mulhi64LimbsNoWrap (a b : Nat) : Option Nat := do
  let aLo := a &&& 0xFFFFFFFF
  let aHi := a >>> 32
  let bLo := b &&& 0xFFFFFFFF
  let bHi := b >>> 32
  let pLl ← mulNoWrap aLo bLo
  let pLh ← mulNoWrap aLo bHi
  let pHl ← mulNoWrap aHi bLo
  let pHh ← mulNoWrap aHi bHi
  let mid ← addNoWrap (pLl >>> 32) (pLh &&& 0xFFFFFFFF)
  let mid ← addNoWrap mid (pHl &&& 0xFFFFFFFF)
  let high ← addNoWrap pHh (pLh >>> 32)
  let high ← addNoWrap high (pHl >>> 32)
  addNoWrap high (mid >>> 32)

end Napqes.C
