import Napqes.Basic
import Napqes.Misc.Except

/-!
# Results and panics of the Rust port

A Rust call returns `Ok`, returns `Err`, or panics. `RustM ε α` keeps the three apart. The
release profile of `rust/Cargo.toml` is modelled: `overflow-checks = true`, so arithmetic
that leaves its word panics, and `debug-assertions = false`, so `debug_assert!` is absent.
-/

namespace Napqes.Rust

/-- Why a call produced no value. -/
inductive Fault (ε : Type) where
  | err (e : ε)
  | panic (msg : String)
  deriving DecidableEq, Repr

/-- A computation that may return `Err` of an `ε` or panic. -/
abbrev RustM (ε α : Type) := Except (Fault ε) α

variable {ε ε' α β : Type}

/-- `return Err(e)`. -/
def err (e : ε) : RustM ε α := .error (.err e)

/-- The thread panics. -/
def panics (msg : String) : RustM ε α := .error (.panic msg)

/-- `Result::map_err`; a panic is not an `Err` and passes through. -/
def mapErr (f : ε → ε') : RustM ε α → RustM ε' α
  | .ok a => .ok a
  | .error (.err e) => .error (.err (f e))
  | .error (.panic msg) => .error (.panic msg)

/-- A call of a function without a `Result`: it returns or panics. -/
def infallible : RustM Empty α → RustM ε α
  | .ok a => .ok a
  | .error (.panic msg) => .error (.panic msg)

@[simp] theorem infallible_ok (a : α) : (infallible (.ok a) : RustM ε α) = .ok a := rfl

theorem infallible_ne_err (x : RustM Empty α) (e : ε) :
    (infallible x : RustM ε α) ≠ .error (.err e) := by
  match x with
  | .ok a => simp [infallible]
  | .error (.panic msg) => simp [infallible]

@[simp] theorem mapErr_ok (f : ε → ε') (a : α) : mapErr f (.ok a) = .ok a := rfl

theorem mapErr_eq_ok {f : ε → ε'} {x : RustM ε α} {a : α} (h : mapErr f x = .ok a) :
    x = .ok a := by
  cases x with
  | ok b => simpa [mapErr] using h
  | error e => cases e <;> simp [mapErr] at h

/-- The value of a `u64` expression; overflow panics. -/
def u64 (n : Nat) : RustM ε Nat :=
  if n < 2 ^ 64 then .ok n else panics "attempt to add with overflow"

/-- The value of a `u32` expression; overflow panics. -/
def u32 (n : Nat) : RustM ε Nat :=
  if n < 2 ^ 32 then .ok n else panics "attempt to add with overflow"

theorem u32_of_lt {n : Nat} (h : n < 2 ^ 32) : (u32 n : RustM ε Nat) = .ok n := if_pos h

theorem u64_of_lt {n : Nat} (h : n < 2 ^ 64) : (u64 n : RustM ε Nat) = .ok n := if_pos h

/-! ## Checked arithmetic -/

/-- `a - b` on an unsigned word. -/
def checkedSub (a b : Nat) : RustM ε Nat :=
  if b ≤ a then .ok (a - b) else panics "attempt to subtract with overflow"

/-- `a * b` on `u32`. -/
def checkedMul (a b : Nat) : RustM ε Nat :=
  if a * b < 2 ^ 32 then .ok (a * b) else panics "attempt to multiply with overflow"

/-- `a % b` on an unsigned word. -/
def checkedRem (a b : Nat) : RustM ε Nat :=
  if b = 0 then panics "attempt to calculate the remainder with a divisor of zero" else .ok (a % b)

/-- `a / b` on an unsigned word. -/
def checkedDiv (a b : Nat) : RustM ε Nat :=
  if b = 0 then panics "attempt to divide by zero" else .ok (a / b)

/-- `1usize << e`. -/
def checkedShl (e : Nat) : RustM ε Nat :=
  if e < 64 then .ok (1 <<< e) else panics "attempt to shift left with overflow"

theorem checkedShl_of_lt {e : Nat} (h : e < 64) :
    (checkedShl e : RustM ε Nat) = .ok (1 <<< e) := if_pos h

theorem checkedSub_of_le {a c : Nat} (h : c ≤ a) :
    (checkedSub a c : RustM ε Nat) = .ok (a - c) := if_pos h

theorem checkedRem_of_pos {a c : Nat} (h : 0 < c) :
    (checkedRem a c : RustM ε Nat) = .ok (a % c) := if_neg (Nat.ne_of_gt h)

theorem checkedDiv_of_pos {a c : Nat} (h : 0 < c) :
    (checkedDiv a c : RustM ε Nat) = .ok (a / c) := if_neg (Nat.ne_of_gt h)

/-! ## Indices and slices -/

/-- `xs[i]`. -/
def index (xs : List α) (i : Nat) : RustM ε α :=
  match xs[i]? with
  | some x => .ok x
  | none => panics "index out of bounds"

/-- `xs[i] = x`. -/
def setIndex (xs : List α) (i : Nat) (x : α) : RustM ε (List α) :=
  if i < xs.length then .ok (xs.set i x) else panics "index out of bounds"

/-- `xs.swap(i, j)`. -/
def swapIndices (xs : List α) (i j : Nat) : RustM ε (List α) := do
  let x ← index xs i
  let y ← index xs j
  let xs ← setIndex xs i y
  setIndex xs j x

/-- `&xs[lo..hi]`. -/
def slice (xs : List α) (lo hi : Nat) : RustM ε (List α) :=
  if lo > hi then panics "slice index starts after its end"
  else if hi > xs.length then panics "range end index out of range for slice"
  else .ok ((xs.drop lo).take (hi - lo))

theorem index_of_lt {xs : List α} {i : Nat} (h : i < xs.length) :
    (index xs i : RustM ε α) = .ok xs[i] := by
  simp only [index, List.getElem?_eq_getElem h]

theorem setIndex_of_lt {xs : List α} {i : Nat} (h : i < xs.length) (x : α) :
    (setIndex xs i x : RustM ε (List α)) = .ok (xs.set i x) := if_pos h

theorem slice_of_le {xs : List α} {lo hi : Nat} (hlo : lo ≤ hi) (hhi : hi ≤ xs.length) :
    (slice xs lo hi : RustM ε (List α)) = .ok ((xs.drop lo).take (hi - lo)) := by
  rw [slice, if_neg (Nat.not_lt.mpr hlo), if_neg (Nat.not_lt.mpr hhi)]

/-- A `&[u8]`, which is never longer than `isize::MAX`. -/
structure ByteSlice where
  bytes : List UInt8
  length_lt : bytes.length < 2 ^ 63

/-! ## Calls that do not panic -/

/-- The call returns, with a value or with an `Err`. -/
def Returns (x : RustM ε α) : Prop := ∀ msg, x ≠ .error (.panic msg)

theorem Returns.ok (a : α) : Returns (.ok a : RustM ε α) := fun _ h => by cases h

theorem Returns.err (e : ε) : Returns (err e : RustM ε α) := fun _ h => by cases h

theorem Returns.bind {x : RustM ε α} {f : α → RustM ε β} (hx : Returns x)
    (hf : ∀ a, x = .ok a → Returns (f a)) : Returns (x >>= f) := by
  intro msg h
  rcases bind_eq_error h with h | ⟨a, ha, h⟩
  · exact hx msg h
  · exact hf a ha msg h

theorem Returns.mapErr {f : ε → ε'} {x : RustM ε α} (hx : Returns x) : Returns (mapErr f x) := by
  intro msg h
  match x with
  | .ok a => cases h
  | .error (.err e) => cases h
  | .error (.panic msg') => exact hx msg' rfl

/-- A loop whose body returns at every element returns. -/
theorem Returns.forM {xs : List α} {f : α → RustM ε PUnit.{1}} (hf : ∀ x ∈ xs, Returns (f x)) :
    Returns (xs.forM f) := by
  induction xs with
  | nil => exact .ok _
  | cons x xs ih =>
      have hrest := ih fun y hy => hf y (List.mem_cons_of_mem x hy)
      exact (hf x List.mem_cons_self).bind fun _ _ => hrest

/-- A call that returns gives a value or an `Err`. -/
theorem Returns.ok_or_err {x : RustM ε α} (hx : Returns x) :
    (∃ a, x = .ok a) ∨ ∃ e, x = .error (.err e) := by
  match x with
  | .ok a => exact Or.inl ⟨a, rfl⟩
  | .error (.err e) => exact Or.inr ⟨e, rfl⟩
  | .error (.panic msg) => exact absurd rfl (hx msg)

/-- `{:02x}` of a byte. -/
def hex02 (b : UInt8) : String :=
  String.ofList [Nat.digitChar (b.toNat / 16), Nat.digitChar (b.toNat % 16)]

end Napqes.Rust
