import Mathlib.Tactic

/-!
# Cyclic redundancy checks

The register of a reflected check moves down by one place for each bit, and takes in the generator
when a one falls out. A step is linear in exclusive or, so the steps of a byte are those of the low
byte, which a table of 256 entries holds, on top of a shift of the rest. Under a generator with its
highest bit set a step is injective, and registers that differ once go on to differ.
-/

namespace Napqes.Crc

variable {w : Nat}

/-- One step of the register under the generator `p`. -/
def step (p x : BitVec w) : BitVec w := (x >>> 1) ^^^ (if x.getLsbD 0 then p else 0#w)

def steps (p : BitVec w) (n : Nat) (x : BitVec w) : BitVec w := (step p)^[n] x

/-- The register takes in a byte. -/
def feed (p x : BitVec w) (b : BitVec 8) : BitVec w := steps p 8 (x ^^^ b.setWidth w)

/-- The register after some bytes, from `x` on. -/
def register (p x : BitVec w) (bs : List (BitVec 8)) : BitVec w := bs.foldl (feed p) x

/-- The entry of the table for a byte. -/
def tableEntry (p : BitVec w) (i : BitVec 8) : BitVec w := steps p 8 (i.setWidth w)

variable {p x y : BitVec w}

/-! ## Linearity -/

theorem step_xor (p x y : BitVec w) : step p (x ^^^ y) = step p x ^^^ step p y := by
  rw [step, step, step, BitVec.ushiftRight_xor_distrib, BitVec.getLsbD_xor]
  cases x.getLsbD 0 <;> cases y.getLsbD 0
  case false.false => simp
  case false.true => simp [BitVec.xor_assoc]
  case true.false => simp [BitVec.xor_assoc, BitVec.xor_comm p]
  case true.true =>
    have hcancel : p ^^^ ((y >>> 1) ^^^ p) = y >>> 1 := by
      rw [BitVec.xor_comm _ p, ← BitVec.xor_assoc, BitVec.xor_self, BitVec.zero_xor]
    simp [BitVec.xor_assoc, hcancel]

theorem steps_succ (p : BitVec w) (n : Nat) (x : BitVec w) :
    steps p (n + 1) x = step p (steps p n x) := Function.iterate_succ_apply' (step p) n x

theorem steps_xor (p : BitVec w) (n : Nat) (x y : BitVec w) :
    steps p n (x ^^^ y) = steps p n x ^^^ steps p n y := by
  induction n with
  | zero => rfl
  | succ n ih => rw [steps_succ, steps_succ, steps_succ, ih, step_xor]

/-! ## The table -/

/-- While zeros fall out the register is only shifted. -/
theorem steps_of_clear {n : Nat} (h : ∀ i < n, x.getLsbD i = false) : steps p n x = x >>> n := by
  induction n with
  | zero => exact (BitVec.ushiftRight_zero x).symm
  | succ n ih =>
      have hlow : (x >>> n).getLsbD 0 = false := by
        rw [BitVec.getLsbD_ushiftRight]
        exact h n (Nat.lt_succ_self n)
      rw [steps_succ, ih fun i hi => h i (Nat.lt_succ_of_lt hi), step, hlow,
        if_neg Bool.false_ne_true, BitVec.xor_zero, ← BitVec.shiftRight_add]

/-- The steps of the lowest `n` bits, and the bits above them moved down. -/
theorem steps_eq (p : BitVec w) (n : Nat) (x : BitVec w) :
    steps p n x = (x >>> n) ^^^ steps p n ((x.setWidth n).setWidth w) := by
  obtain ⟨low, hlow⟩ : ∃ low, (x.setWidth n).setWidth w = low := ⟨_, rfl⟩
  have hbits : ∀ i, low.getLsbD i = (decide (i < n) && x.getLsbD i) := by
    intro i
    rw [← hlow, BitVec.getLsbD_setWidth, BitVec.getLsbD_setWidth]
    by_cases hi : i < w
    · simp [hi]
    · simp [hi, BitVec.getLsbD_of_ge x i (Nat.le_of_not_lt hi)]
  have hclear : ∀ i < n, (x ^^^ low).getLsbD i = false := by
    intro i hi
    rw [BitVec.getLsbD_xor, hbits]
    simp [hi]
  have hshift : low >>> n = 0#w := by
    apply BitVec.eq_of_getLsbD_eq
    intro i hi
    rw [BitVec.getLsbD_ushiftRight, hbits]
    simp
  have hsplit : x = (x ^^^ low) ^^^ low := by
    rw [BitVec.xor_assoc, BitVec.xor_self, BitVec.xor_zero]
  rw [hlow]
  conv => lhs; rw [hsplit]
  rw [steps_xor, steps_of_clear hclear, BitVec.ushiftRight_xor_distrib, hshift, BitVec.xor_zero]

/-- A byte at a time with the table. -/
theorem feed_eq (p x : BitVec w) (b : BitVec 8) :
    feed p x b = (x >>> 8) ^^^ tableEntry p ((x ^^^ b.setWidth w).setWidth 8) := by
  have hbyte : (b.setWidth w) >>> 8 = 0#w := by
    apply BitVec.eq_of_getLsbD_eq
    intro i hi
    rw [BitVec.getLsbD_ushiftRight, BitVec.getLsbD_setWidth,
      BitVec.getLsbD_of_ge b (8 + i) (by omega)]
    simp
  rw [feed, steps_eq, BitVec.ushiftRight_xor_distrib, hbyte, BitVec.xor_zero, tableEntry]

/-! ## Differences stay -/

theorem eq_zero_of_step (hp : p.getLsbD (w - 1) = true) (h : step p x = 0#w) : x = 0#w := by
  have hw : 0 < w := by
    by_contra hzero
    rw [BitVec.getLsbD_of_ge p (w - 1) (by omega)] at hp
    cases hp
  cases hbit : x.getLsbD 0 with
  | true =>
      -- The generator has the highest bit and the shifted register has not.
      rw [step, hbit, if_pos rfl, BitVec.xor_eq_zero_iff] at h
      rw [← h, BitVec.getLsbD_ushiftRight, BitVec.getLsbD_of_ge x _ (by omega)] at hp
      cases hp
  | false =>
      rw [step, hbit, if_neg Bool.false_ne_true, BitVec.xor_zero] at h
      apply BitVec.eq_of_getLsbD_eq
      intro i hi
      cases i with
      | zero => simpa using hbit
      | succ i =>
          have hnext := congrArg (fun z => z.getLsbD i) h
          simp only [BitVec.getLsbD_ushiftRight] at hnext
          rw [Nat.add_comm i, hnext, BitVec.getLsbD_zero, BitVec.getLsbD_zero]

theorem step_injective (hp : p.getLsbD (w - 1) = true) : Function.Injective (step p) := by
  intro x y h
  rw [← BitVec.xor_eq_zero_iff] at h ⊢
  rw [← step_xor] at h
  exact eq_zero_of_step hp h

theorem feed_left_injective (hp : p.getLsbD (w - 1) = true) {b : BitVec 8}
    (h : feed p x b = feed p y b) : x = y := by
  have hxor := (step_injective hp).iterate 8 h
  rw [BitVec.xor_comm x, BitVec.xor_comm y] at hxor
  exact (BitVec.xor_right_inj _).mp hxor

theorem feed_right_injective (hp : p.getLsbD (w - 1) = true) (hw : 8 ≤ w) {b c : BitVec 8}
    (h : feed p x b = feed p x c) : b = c := by
  have hwide := (BitVec.xor_right_inj x).mp ((step_injective hp).iterate 8 h)
  have hback := congrArg (BitVec.setWidth 8) hwide
  rwa [BitVec.setWidth_setWidth_of_le _ hw, BitVec.setWidth_setWidth_of_le _ hw,
    BitVec.setWidth_eq, BitVec.setWidth_eq] at hback

theorem register_injective (hp : p.getLsbD (w - 1) = true) {bs : List (BitVec 8)}
    (h : register p x bs = register p y bs) : x = y := by
  induction bs generalizing x y with
  | nil => exact h
  | cons b bs ih => exact feed_left_injective hp (ih h)

/-- A change in one byte is never lost. -/
theorem register_ne (hp : p.getLsbD (w - 1) = true) (hw : 8 ≤ w) {b c : BitVec 8} (hne : b ≠ c)
    (front back : List (BitVec 8)) :
    register p x (front ++ b :: back) ≠ register p x (front ++ c :: back) := by
  intro h
  rw [register, register, List.foldl_append, List.foldl_append, List.foldl_cons,
    List.foldl_cons] at h
  exact hne (feed_right_injective hp hw (register_injective hp h))

end Napqes.Crc
