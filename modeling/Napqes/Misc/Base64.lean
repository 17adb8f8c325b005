import Mathlib.Data.List.Basic

/-!
# Base64

The text of a byte string over an alphabet of 64 symbols: three bytes are four symbols of six bits
each, and a last group of one or two bytes is filled with padding.
-/

namespace Napqes.Base64

variable {α β : Type} (symbol : Nat → α) (pad : α)

/-- The text of a byte string. -/
def encode : List UInt8 → List α
  | a :: b :: c :: rest =>
      symbol (a.toNat / 4) :: symbol (a.toNat % 4 * 16 + b.toNat / 16) ::
        symbol (b.toNat % 16 * 4 + c.toNat / 64) :: symbol (c.toNat % 64) :: encode rest
  | [a] => [symbol (a.toNat / 4), symbol (a.toNat % 4 * 16), pad, pad]
  | [a, b] =>
      [symbol (a.toNat / 4), symbol (a.toNat % 4 * 16 + b.toNat / 16), symbol (b.toNat % 16 * 4),
        pad]
  | [] => []

variable {symbol pad}

theorem map_encode (f : α → β) (x : List UInt8) :
    (encode symbol pad x).map f = encode (fun v => f (symbol v)) (f pad) x := by
  induction x using encode.induct with
  | case1 a b c rest ih => simp only [encode, List.map_cons, ih]
  | case2 a => rfl
  | case3 a b => rfl
  | case4 => rfl

/-- Two alphabets that agree on 64 values give one text. -/
theorem encode_congr {symbol' : Nat → α} (h : ∀ v < 64, symbol v = symbol' v) (x : List UInt8) :
    encode symbol pad x = encode symbol' pad x := by
  induction x using encode.induct with
  | case1 a b c rest ih =>
      have ha := a.toNat_lt
      have hb := b.toNat_lt
      have hc := c.toNat_lt
      rw [encode, encode, ih, h _ (by omega), h _ (by omega), h _ (by omega), h _ (by omega)]
  | case2 a =>
      have ha := a.toNat_lt
      rw [encode, encode, h _ (by omega), h _ (by omega)]
  | case3 a b =>
      have ha := a.toNat_lt
      have hb := b.toNat_lt
      rw [encode, encode, h _ (by omega), h _ (by omega), h _ (by omega)]
  | case4 => rfl

/-- A text consists of symbols and padding. -/
theorem forall_mem_encode {P : α → Prop} (hsymbol : ∀ v < 64, P (symbol v)) (hpad : P pad)
    (x : List UInt8) : ∀ s ∈ encode symbol pad x, P s := by
  induction x using encode.induct with
  | case1 a b c rest ih =>
      have ha := a.toNat_lt
      have hb := b.toNat_lt
      have hc := c.toNat_lt
      simp only [encode, List.forall_mem_cons]
      exact ⟨hsymbol _ (by omega), hsymbol _ (by omega), hsymbol _ (by omega),
        hsymbol _ (by omega), ih⟩
  | case2 a =>
      have ha := a.toNat_lt
      simp only [encode, List.forall_mem_cons]
      exact ⟨hsymbol _ (by omega), hsymbol _ (by omega), hpad, hpad, List.forall_mem_nil _⟩
  | case3 a b =>
      have ha := a.toNat_lt
      have hb := b.toNat_lt
      simp only [encode, List.forall_mem_cons]
      exact ⟨hsymbol _ (by omega), hsymbol _ (by omega), hsymbol _ (by omega), hpad,
        List.forall_mem_nil _⟩
  | case4 => exact List.forall_mem_nil _

theorem length_encode (x : List UInt8) :
    (encode symbol pad x).length = (x.length + 2) / 3 * 4 := by
  induction x using encode.induct with
  | case1 a b c rest ih =>
      simp only [encode, List.length_cons, ih]
      omega
  | case2 a => simp [encode]
  | case3 a b => simp [encode]
  | case4 => rfl

theorem encode_ne_nil {x : List UInt8} (hx : x ≠ []) : encode symbol pad x ≠ [] := by
  match x with
  | _ :: _ :: _ :: _ => exact List.cons_ne_nil _ _
  | [_] => exact List.cons_ne_nil _ _
  | [_, _] => exact List.cons_ne_nil _ _

/-! ## The standard alphabet -/

/-- The code of the character for six bits. -/
def code (v : Nat) : Nat :=
  if v < 26 then 0x41 + v
  else if v < 52 then 0x61 + (v - 26)
  else if v < 62 then 0x30 + (v - 52)
  else if v = 62 then 0x2B
  else 0x2F

/-- The code of `=`. -/
def padCode : Nat := 0x3D

/-- The text of a byte string, by the codes of its characters. -/
def text (x : List UInt8) : List Nat := encode code padCode x

/-- Every character of a text is ASCII. -/
theorem lt_of_mem_text {x : List UInt8} : ∀ c ∈ text x, c < 0x80 :=
  forall_mem_encode (by decide) (by decide) x

end Napqes.Base64
