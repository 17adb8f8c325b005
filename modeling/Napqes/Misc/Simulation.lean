import Mathlib.Tactic

/-!
# Traces and simulations

A step of a system shows a list of events, which is empty for an internal step, and a run shows the
events of its steps one after the other. A relation between the states of two systems carries the
runs of the first over to the second when the second can follow every step of the first.
-/

namespace Napqes

variable {σ τ ε : Type} {step : σ → List ε → σ → Prop} {step' : τ → List ε → τ → Prop}

/-- A finite run with the events it shows. -/
inductive Traced (step : σ → List ε → σ → Prop) : σ → List ε → σ → Prop where
  | refl (s : σ) : Traced step s [] s
  | next {s t u : σ} {es es' : List ε} :
      Traced step s es t → step t es' u → Traced step s (es ++ es') u

namespace Traced

theorem single {s t : σ} {es : List ε} (h : step s es t) : Traced step s es t :=
  (Traced.refl s).next h

theorem trans {s t u : σ} {es es' : List ε} (h : Traced step s es t) (h' : Traced step t es' u) :
    Traced step s (es ++ es') u := by
  induction h' with
  | refl =>
      rw [List.append_nil]
      exact h
  | next _ hlast ih =>
      rw [← List.append_assoc]
      exact ih.next hlast

/-- A step that shows nothing does not change the trace. -/
theorem silent {s t u : σ} {es : List ε} (h : Traced step s es t) (hstep : step t [] u) :
    Traced step s es u := by
  have hnext := h.next hstep
  rwa [List.append_nil] at hnext

/-- What the start satisfies and every step keeps holds of every run and what it shows. -/
theorem invariant {I : List ε → σ → Prop} {s t : σ} {es : List ε}
    (hstep : ∀ es t es' u, step t es' u → I es t → I (es ++ es') u)
    (h : Traced step s es t) (hs : I [] s) : I es t := by
  induction h with
  | refl => exact hs
  | next _ hlast ih => exact hstep _ _ _ _ hlast ih

end Traced

/-- From related states, the second system follows every step of the first with a run that shows
the same. -/
def ForwardSimulation (step : σ → List ε → σ → Prop) (step' : τ → List ε → τ → Prop)
    (R : σ → τ → Prop) : Prop :=
  ∀ s es t, step s es t → ∀ a, R s a → ∃ b, Traced step' a es b ∧ R t b

/-- What a run of the first system shows, a run of the second shows too. -/
theorem ForwardSimulation.traced {R : σ → τ → Prop} (hsim : ForwardSimulation step step' R)
    {s t : σ} {a : τ} {es : List ε} (h : Traced step s es t) (hR : R s a) :
    ∃ b, Traced step' a es b ∧ R t b := by
  induction h with
  | refl => exact ⟨a, .refl a, hR⟩
  | next _ hlast ih =>
      obtain ⟨b, hrun, hb⟩ := ih
      obtain ⟨c, hfollow, hc⟩ := hsim _ _ _ hlast b hb
      exact ⟨c, hrun.trans hfollow, hc⟩

end Napqes
