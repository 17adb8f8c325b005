import Mathlib.Logic.Relation
import Mathlib.Tactic

/-!
# Runs under a condition

A system is a step relation with a label on each step. A run is a finite sequence of steps; a
condition on the state before a step and on its label restricts the runs that are looked at.
-/

namespace Napqes

variable {σ α : Type} {step : σ → α → σ → Prop} {condition condition' : σ → α → Prop}

/-- A finite run whose every step satisfies a condition. -/
def Run (step : σ → α → σ → Prop) (condition : σ → α → Prop) (s t : σ) : Prop :=
  Relation.ReflTransGen (fun s t => ∃ a, step s a t ∧ condition s a) s t

namespace Run

theorem refl (s : σ) : Run step condition s s := Relation.ReflTransGen.refl

/-- One more step. -/
theorem next {s t u : σ} (h : Run step condition s t) (a : α) (hstep : step t a u)
    (hcond : condition t a) : Run step condition s u :=
  Relation.ReflTransGen.tail h ⟨a, hstep, hcond⟩

theorem trans {s t u : σ} (h : Run step condition s t) (h' : Run step condition t u) :
    Run step condition s u :=
  Relation.ReflTransGen.trans h h'

/-- What every step preserves holds at the end of every run. -/
theorem invariant {I : σ → Prop} {s t : σ}
    (hstep : ∀ s a t, step s a t → condition s a → I s → I t) (h : Run step condition s t)
    (hs : I s) : I t := by
  induction h with
  | refl => exact hs
  | tail _ hlast ih =>
      obtain ⟨a, htail, hcond⟩ := hlast
      exact hstep _ a _ htail hcond ih

/-- A run under a condition that implies another, where the states satisfy an invariant. -/
theorem mono {I : σ → Prop} {s t : σ}
    (hstep : ∀ s a t, step s a t → condition s a → I s → I t)
    (hcond : ∀ s a t, step s a t → condition s a → I s → condition' s a)
    (h : Run step condition s t) (hs : I s) : Run step condition' s t := by
  induction h with
  | refl => exact .refl _
  | @tail t u hrun hlast ih =>
      obtain ⟨a, htail, hlabel⟩ := hlast
      exact ih.next a htail (hcond _ a _ htail hlabel (invariant hstep hrun hs))

end Run

/-! ## Sequences of actions -/

/-- The state after a sequence of actions of a functional step, if each can happen. -/
def runSteps (next : σ → α → Option σ) : σ → List α → Option σ
  | s, [] => some s
  | s, a :: as => (next s a).bind fun t => runSteps next t as

theorem runSteps_append {next : σ → α → Option σ} {s : σ} (as bs : List α) :
    runSteps next s (as ++ bs) = (runSteps next s as).bind fun t => runSteps next t bs := by
  induction as generalizing s with
  | nil => rfl
  | cons a as ih =>
      rw [List.cons_append, runSteps, runSteps, Option.bind_assoc]
      exact congrArg _ (funext fun t => ih)

theorem run_of_runSteps {next : σ → α → Option σ} {as : List α} {s t : σ}
    (hcond : ∀ a ∈ as, ∀ s, condition s a) (h : runSteps next s as = some t) :
    Run (fun s a t => next s a = some t) condition s t := by
  induction as generalizing s with
  | nil =>
      cases h
      exact .refl _
  | cons a as ih =>
      obtain ⟨u, hu, hrest⟩ := Option.bind_eq_some_iff.mp h
      have hfirst : Run (fun s a t => next s a = some t) condition s u :=
        (Run.refl s).next a hu (hcond a List.mem_cons_self s)
      exact hfirst.trans (ih (fun b hb => hcond b (List.mem_cons_of_mem _ hb)) hrest)

/-- When each step of a kind makes the work left smaller, the steps of a run are paid for by the
work that was left at its start. -/
theorem runSteps_use_up {next : σ → α → Option σ} {work : σ → Nat → Prop} {kind : α → Prop}
    (hstep : ∀ s a t k, next s a = some t → kind a → work s k → ∃ k', k' < k ∧ work t k')
    {as : List α} {s t : σ} (has : ∀ a ∈ as, kind a) (h : runSteps next s as = some t) {k : Nat}
    (hs : work s k) : ∃ k', k' + as.length ≤ k ∧ work t k' := by
  induction as generalizing s k with
  | nil =>
      cases h
      exact ⟨k, Nat.le_refl k, hs⟩
  | cons a as ih =>
      obtain ⟨u, hu, hrest⟩ := Option.bind_eq_some_iff.mp h
      obtain ⟨k', hlt, hwork⟩ := hstep s a u k hu (has a List.mem_cons_self) hs
      obtain ⟨k'', hle, hlast⟩ := ih (fun b hb => has b (List.mem_cons_of_mem _ hb)) hrest hwork
      refine ⟨k'', ?_, hlast⟩
      rw [List.length_cons]
      omega

end Napqes
