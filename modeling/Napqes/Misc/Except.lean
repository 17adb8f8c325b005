import Mathlib.Tactic

/-!
# Sequencing in `Except`

When a sequence of fallible steps succeeds, and where it fails.
-/

namespace Napqes

variable {ε α β : Type}

@[simp] theorem ok_bind (a : α) (f : α → Except ε β) : ((Except.ok a : Except ε α) >>= f) = f a :=
  rfl

@[simp] theorem error_bind (e : ε) (f : α → Except ε β) :
    ((Except.error e : Except ε α) >>= f) = .error e := rfl

theorem map_bind {γ : Type} (g : α → β) (x : Except ε α) (f : β → Except ε γ) :
    (x.map g >>= f) = x >>= fun a => f (g a) := by
  cases x with
  | ok a => rfl
  | error e => rfl

/-- A sequence of steps succeeds only if each of them does. -/
theorem bind_eq_ok {x : Except ε α} {f : α → Except ε β} {b : β} :
    (x >>= f) = .ok b ↔ ∃ a, x = .ok a ∧ f a = .ok b := by
  cases x with
  | ok a => simp
  | error e => simp

/-- A sequence of steps fails where the first failing step does. -/
theorem bind_eq_error {x : Except ε α} {f : α → Except ε β} {e : ε}
    (h : (x >>= f) = .error e) : x = .error e ∨ ∃ a, x = .ok a ∧ f a = .error e := by
  cases x with
  | ok a => exact Or.inr ⟨a, rfl, h⟩
  | error e' => exact Or.inl (by simpa using h)

/-- What follows a step matters only on the values the step can return. -/
theorem bind_congr_of_ok {x : Except ε α} {f g : α → Except ε β} (h : ∀ a, x = .ok a → f a = g a) :
    (x >>= f) = x >>= g := by
  cases x with
  | ok a => exact h a rfl
  | error e => rfl

/-- A `for` loop whose body only checks: it runs through when every element passes. -/
theorem forM_eq_ok {xs : List α} {f : α → Except ε PUnit.{1}} :
    xs.forM f = .ok ⟨⟩ ↔ ∀ x ∈ xs, f x = .ok ⟨⟩ := by
  induction xs with
  | nil => simp [pure, Except.pure]
  | cons x xs ih =>
      show (f x >>= fun _ => xs.forM f) = .ok ⟨⟩ ↔ _
      rw [bind_eq_ok]
      constructor
      · rintro ⟨⟨⟩, hx, hxs⟩ y hy
        rcases List.mem_cons.mp hy with rfl | hy
        · exact hx
        · exact ih.mp hxs y hy
      · intro h
        exact ⟨⟨⟩, h x (by simp), ih.mpr fun y hy => h y (by simp [hy])⟩

/-! ## Counting loops -/

/-- A loop over `n` consecutive indices from `lo` on, with the variables its body assigns. -/
def forRange {σ : Type} (f : Nat → σ → Except ε σ) : Nat → Nat → σ → Except ε σ
  | _, 0, st => .ok st
  | lo, n + 1, st => do
    let st ← f lo st
    forRange f (lo + 1) n st

/-- What the body keeps at every index, without failing, holds after the loop, which does not fail
either. -/
theorem forRange_invariant {σ : Type} {f : Nat → σ → Except ε σ} {P : Nat → σ → Prop}
    {lo n : Nat} {st : σ} (h : P lo st)
    (hbody : ∀ i st, lo ≤ i → i < lo + n → P i st → ∃ st', f i st = .ok st' ∧ P (i + 1) st') :
    ∃ st', forRange f lo n st = .ok st' ∧ P (lo + n) st' := by
  induction n generalizing lo st with
  | zero => exact ⟨st, rfl, h⟩
  | succ n ih =>
      obtain ⟨st', hst', h'⟩ := hbody lo st le_rfl (by omega) h
      obtain ⟨st'', hst'', h''⟩ := ih h' fun i st hlo hi => hbody i st (by omega) (by omega)
      refine ⟨st'', ?_, ?_⟩
      · rw [forRange, hst', ok_bind, hst'']
      · rwa [Nat.add_right_comm] at h''

/-- The first of `n` consecutive indices from `lo` on at which a test succeeds. -/
def findRange (p : Nat → Except ε Bool) : Nat → Nat → Except ε (Option Nat)
  | _, 0 => .ok none
  | lo, n + 1 => do
    if ← p lo then
      return some lo
    else
      findRange p (lo + 1) n

theorem findRange_eq {p : Nat → Except ε Bool} {q : Nat → Bool} {lo n : Nat}
    (h : ∀ i, lo ≤ i → i < lo + n → p i = .ok (q i)) :
    findRange p lo n = .ok ((List.range' lo n).find? q) := by
  induction n generalizing lo with
  | zero => rfl
  | succ n ih =>
      rw [findRange, h lo le_rfl (by omega), ok_bind, List.range'_succ, List.find?_cons]
      cases q lo with
      | true => rfl
      | false => exact ih fun i hlo hi => h i (by omega) (by omega)

/-! ## Kinds of errors -/

/-- Whatever error `x` ends with, if it does, satisfies `P`. -/
def FailsOnly (P : ε → Prop) (x : Except ε α) : Prop := ∀ e, x = .error e → P e

section
variable {P : ε → Prop}

theorem failsOnly_ok (a : α) : FailsOnly P (.ok a) := by
  intro e he
  cases he

theorem failsOnly_error_iff {e : ε} : FailsOnly P (.error e : Except ε α) ↔ P e := by
  constructor
  · intro h
    exact h e rfl
  · intro he e' heq
    rwa [← Except.error.inj heq]

/-- A sequence of steps fails in one way only when each step does that is reached. -/
theorem failsOnly_bind_iff {x : Except ε α} {f : α → Except ε β} :
    FailsOnly P (x >>= f) ↔ FailsOnly P x ∧ ∀ a, x = .ok a → FailsOnly P (f a) := by
  cases x with
  | ok a => simp [failsOnly_ok]
  | error e => simp [failsOnly_error_iff]

theorem FailsOnly.bind {x : Except ε α} {f : α → Except ε β} (hx : FailsOnly P x)
    (hf : ∀ a, x = .ok a → FailsOnly P (f a)) : FailsOnly P (x >>= f) :=
  failsOnly_bind_iff.mpr ⟨hx, hf⟩

theorem FailsOnly.mapM {xs : List α} {f : α → Except ε β} (h : ∀ x ∈ xs, FailsOnly P (f x)) :
    FailsOnly P (xs.mapM f) := by
  induction xs with
  | nil => exact failsOnly_ok []
  | cons x xs ih =>
      rw [List.forall_mem_cons] at h
      rw [List.mapM_cons]
      apply h.1.bind
      intro b hb
      apply (ih h.2).bind
      intro bs hbs
      exact failsOnly_ok _

end

/-! ## Forgetting the error -/

theorem toOption_eq_some {x : Except ε α} {a : α} : x.toOption = some a ↔ x = .ok a := by
  cases x <;> simp [Except.toOption]

theorem toOption_bind (x : Except ε α) (f : α → Except ε β) :
    (x >>= f).toOption = x.toOption.bind fun a => (f a).toOption := by
  cases x <;> rfl

end Napqes
