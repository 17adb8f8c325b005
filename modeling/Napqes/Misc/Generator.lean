import Napqes.Misc.Except

/-!
# Generators

A generator hands out values while it runs and then ends, with a result or with an error. What
it has handed out stays handed out when it fails later, so a run is both: the values, in order,
and the outcome.
-/

namespace Napqes

/-- The run of a generator that is exhausted: what it yielded and how it ended. -/
structure Gen (ε ω α : Type) where
  yielded : List ω
  outcome : Except ε α

namespace Gen

variable {ε ω α β : Type}

/-- A computation that yields nothing. -/
def lift (x : Except ε α) : Gen ε ω α := ⟨[], x⟩

/-- Hand out one value. -/
def yield (x : ω) : Gen ε ω PUnit := ⟨[x], .ok ⟨⟩⟩

/-- Run `f` on the result of `x`; an error of `x` ends the run. -/
def bind (x : Gen ε ω α) (f : α → Gen ε ω β) : Gen ε ω β :=
  match x.outcome with
  | .ok a => ⟨x.yielded ++ (f a).yielded, (f a).outcome⟩
  | .error e => ⟨x.yielded, .error e⟩

instance : Monad (Gen ε ω) where
  pure a := ⟨[], .ok a⟩
  bind := bind

instance : MonadLift (Except ε) (Gen ε ω) := ⟨lift⟩

theorem ext {x y : Gen ε ω α} (hyielded : x.yielded = y.yielded)
    (houtcome : x.outcome = y.outcome) : x = y := by
  cases x
  cases y
  simp only [mk.injEq]
  exact ⟨hyielded, houtcome⟩

@[simp] theorem pure_eq (a : α) : (pure a : Gen ε ω α) = ⟨[], .ok a⟩ := rfl

@[simp] theorem liftM_ok_bind (a : α) (f : α → Gen ε ω β) :
    ((liftM (Except.ok a : Except ε α) : Gen ε ω α) >>= f) = f a := rfl

@[simp] theorem liftM_error_bind (e : ε) (f : α → Gen ε ω β) :
    ((liftM (Except.error e : Except ε α) : Gen ε ω α) >>= f) = ⟨[], .error e⟩ := rfl

@[simp] theorem ok_bind (xs : List ω) (a : α) (f : α → Gen ε ω β) :
    ((⟨xs, .ok a⟩ : Gen ε ω α) >>= f) = ⟨xs ++ (f a).yielded, (f a).outcome⟩ := rfl

@[simp] theorem error_bind (xs : List ω) (e : ε) (f : α → Gen ε ω β) :
    ((⟨xs, .error e⟩ : Gen ε ω α) >>= f) = ⟨xs, .error e⟩ := rfl

@[simp] theorem yield_bind (x : ω) (f : PUnit → Gen ε ω β) :
    (yield x >>= f) = ⟨x :: (f ⟨⟩).yielded, (f ⟨⟩).outcome⟩ := rfl

theorem bind_of_ok {x : Gen ε ω α} {a : α} (h : x.outcome = .ok a) (f : α → Gen ε ω β) :
    (x >>= f) = ⟨x.yielded ++ (f a).yielded, (f a).outcome⟩ := by
  obtain ⟨xs, outcome⟩ := x
  subst h
  rfl

theorem bind_of_error {x : Gen ε ω α} {e : ε} (h : x.outcome = .error e) (f : α → Gen ε ω β) :
    (x >>= f) = ⟨x.yielded, .error e⟩ := by
  obtain ⟨xs, outcome⟩ := x
  subst h
  rfl

/-- How a run in two stages ends. -/
theorem bind_outcome (x : Gen ε ω α) (f : α → Gen ε ω β) :
    (x >>= f).outcome = x.outcome >>= fun a => (f a).outcome := by
  obtain ⟨xs, outcome⟩ := x
  cases outcome with
  | ok a => rfl
  | error e => rfl

theorem bind_assoc {γ : Type} (x : Gen ε ω α) (f : α → Gen ε ω β) (g : β → Gen ε ω γ) :
    (x >>= f >>= g) = x >>= fun a => f a >>= g := by
  obtain ⟨xs, outcome⟩ := x
  cases outcome with
  | ok a =>
      rw [ok_bind, ok_bind]
      obtain ⟨ys, outcome⟩ := f a
      cases outcome with
      | ok b => simp only [ok_bind, List.append_assoc]
      | error e => rfl
  | error e => rfl

theorem liftM_outcome (x : Except ε α) : (liftM x : Gen ε ω α).outcome = x := rfl

theorem yield_outcome (x : ω) : (yield x : Gen ε ω PUnit).outcome = .ok ⟨⟩ := rfl

/-- A run that ends well passes through every one of its stages. -/
theorem bind_outcome_eq_ok {x : Gen ε ω α} {f : α → Gen ε ω β} {b : β} :
    (x >>= f).outcome = .ok b ↔ ∃ a, x.outcome = .ok a ∧ (f a).outcome = .ok b := by
  obtain ⟨xs, outcome⟩ := x
  cases outcome with
  | ok a => simp
  | error e => simp

/-- What a run in two stages has yielded: all of the first stage, and the second one if it was
reached. -/
theorem bind_yielded (x : Gen ε ω α) (f : α → Gen ε ω β) :
    (x >>= f).yielded =
      x.yielded ++ (match x.outcome with
        | .ok a => (f a).yielded
        | .error _ => []) := by
  obtain ⟨xs, outcome⟩ := x
  cases outcome with
  | ok a => rfl
  | error e => simp

theorem mem_bind_yielded {x : Gen ε ω α} {w : ω} (h : w ∈ x.yielded) (f : α → Gen ε ω β) :
    w ∈ (x >>= f).yielded := by
  rw [bind_yielded]
  exact List.mem_append_left _ h

theorem bind_yielded_eq_nil {x : Gen ε ω α} {f : α → Gen ε ω β} (hx : x.yielded = [])
    (hf : ∀ a, (f a).yielded = []) : (x >>= f).yielded = [] := by
  obtain ⟨xs, outcome⟩ := x
  subst hx
  cases outcome with
  | ok a => exact hf a
  | error e => rfl

/-! ## Rules for runs -/

/-- Whatever the run yields satisfies `P`, and its result, if it has one, satisfies `Q`. -/
structure Satisfies (x : Gen ε ω α) (P : ω → Prop) (Q : α → Prop) : Prop where
  yielded : ∀ w ∈ x.yielded, P w
  outcome : ∀ a, x.outcome = .ok a → Q a

variable {P : ω → Prop} {Q : α → Prop} {R : β → Prop}

theorem Satisfies.pure {a : α} (h : Q a) : Satisfies (pure a : Gen ε ω α) P Q where
  yielded w hw := by cases hw
  outcome b hb := by
    cases hb
    exact h

theorem Satisfies.lift {x : Except ε α} (h : ∀ a, x = .ok a → Q a) :
    Satisfies (liftM x : Gen ε ω α) P Q where
  yielded w hw := by cases hw
  outcome a ha := h a ha

theorem Satisfies.bind {x : Gen ε ω α} {f : α → Gen ε ω β} (hx : Satisfies x P Q)
    (hf : ∀ a, Q a → Satisfies (f a) P R) : Satisfies (x >>= f) P R := by
  cases hout : x.outcome with
  | ok a =>
      have hfa := hf a (hx.outcome a hout)
      rw [bind_of_ok hout]
      refine ⟨?_, hfa.outcome⟩
      intro w hw
      rcases List.mem_append.mp hw with hw | hw
      · exact hx.yielded w hw
      · exact hfa.yielded w hw
  | error e =>
      rw [bind_of_error hout]
      refine ⟨hx.yielded, ?_⟩
      intro b hb
      cases hb

theorem Satisfies.yield_bind {w : ω} {f : PUnit → Gen ε ω β} (hw : P w)
    (hf : Satisfies (f ⟨⟩) P R) : Satisfies (yield w >>= f) P R where
  yielded v hv := by
    rcases List.mem_cons.mp hv with rfl | hv
    · exact hw
    · exact hf.yielded v hv
  outcome := hf.outcome

/-- The run has handed out a beginning of `text`, and all of it if it ended well. -/
structure Releases (x : Gen ε ω α) (text : List ω) : Prop where
  beginning : x.yielded <+: text
  whole : ∀ a, x.outcome = .ok a → x.yielded = text

theorem Releases.of_error {xs text : List ω} (h : xs <+: text) (e : ε) :
    Releases (⟨xs, .error e⟩ : Gen ε ω α) text where
  beginning := h
  whole a ha := by cases ha

theorem Releases.append {x : Gen ε ω α} {text : List ω} (h : Releases x text) (xs : List ω) :
    Releases ⟨xs ++ x.yielded, x.outcome⟩ (xs ++ text) where
  beginning := (List.prefix_append_right_inj xs).mpr h.beginning
  whole a ha := congrArg (xs ++ ·) (h.whole a ha)

/-- The run has handed out nothing or a beginning of one of the texts, and the whole of one of them
if it ended well. -/
structure ReleasesOneOf (x : Gen ε ω α) (texts : List ω → Prop) : Prop where
  beginning : x.yielded = [] ∨ ∃ text, texts text ∧ x.yielded <+: text
  whole : ∀ a, x.outcome = .ok a → texts x.yielded

theorem Releases.oneOf {x : Gen ε ω α} {text : List ω} {texts : List ω → Prop}
    (h : Releases x text) (htext : texts text) : ReleasesOneOf x texts where
  beginning := .inr ⟨text, htext, h.beginning⟩
  whole a ha := by rwa [h.whole a ha]

theorem ReleasesOneOf.of_error {texts : List ω → Prop} (e : ε) :
    ReleasesOneOf (⟨[], .error e⟩ : Gen ε ω α) texts where
  beginning := .inl rfl
  whole a ha := by cases ha

end Gen

end Napqes
