import Mathlib.Tactic
import Napqes.Misc.Run

/-!
# Executions

A run with its states and actions, numbered from 0, so that what happens before, after or during
something can be said.
-/

namespace Napqes

variable {σ α : Type} {step : σ → α → σ → Prop} {init : σ}

/-- A finite execution from an initial state. Only the first `length` actions, and the states up to
that, count. -/
structure Execution (step : σ → α → σ → Prop) (init : σ) where
  length : Nat
  state : Nat → σ
  action : Nat → α
  start : state 0 = init
  steps : ∀ i < length, step (state i) (action i) (state (i + 1))

namespace Execution

variable (e : Execution step init)

/-- What holds at the start and is kept by each step holds all along. -/
theorem induction {P : Nat → Prop} (hstart : P 0) (hstep : ∀ i < e.length, P i → P (i + 1)) :
    ∀ i ≤ e.length, P i := by
  intro i
  induction i with
  | zero => exact fun _ => hstart
  | succ i ih => exact fun hi => hstep i hi (ih (Nat.le_of_succ_le hi))

/-- What holds at some point and is kept by each later step holds from there on. -/
theorem induction_from {P : Nat → Prop} {i : Nat} (hstart : P i)
    (hstep : ∀ j, i ≤ j → j < e.length → P j → P (j + 1)) :
    ∀ j, i ≤ j → j ≤ e.length → P j := by
  intro j hij
  induction j, hij using Nat.le_induction with
  | base => exact fun _ => hstart
  | succ j hij ih => exact fun hj => hstep j hij hj (ih (Nat.le_of_succ_le hj))

/-- An invariant holds in every state. -/
theorem invariant {I : σ → Prop} (hinit : I init) (hstep : ∀ s a t, step s a t → I s → I t) :
    ∀ i ≤ e.length, I (e.state i) := by
  refine e.induction ?_ ?_
  · rw [e.start]
    exact hinit
  · intro i hi hs
    exact hstep _ _ _ (e.steps i hi) hs

end Execution

/-! ## Sequences of actions -/

theorem runSteps_take {next : σ → α → Option σ} {as : List α} {s t : σ}
    (h : runSteps next s as = some t) {i : Nat} (hi : i < as.length) :
    ∃ u v, runSteps next s (as.take i) = some u ∧ next u as[i] = some v ∧
      runSteps next s (as.take (i + 1)) = some v := by
  induction as generalizing s i with
  | nil => cases hi
  | cons a as ih =>
      obtain ⟨w, hw, hrest⟩ := Option.bind_eq_some_iff.mp h
      cases i with
      | zero => exact ⟨s, w, rfl, hw, Option.bind_eq_some_iff.mpr ⟨w, hw, rfl⟩⟩
      | succ i =>
          obtain ⟨u, v, hu, hv, hnext⟩ := ih hrest (Nat.lt_of_succ_lt_succ hi)
          exact ⟨u, v, Option.bind_eq_some_iff.mpr ⟨w, hw, hu⟩, hv,
            Option.bind_eq_some_iff.mpr ⟨w, hw, hnext⟩⟩

/-- The execution of a sequence of actions. -/
def Execution.ofSteps [Inhabited α] (next : σ → α → Option σ) (as : List α) {s t : σ}
    (h : runSteps next s as = some t) : Execution (fun s a t => next s a = some t) s where
  length := as.length
  state i := (runSteps next s (as.take i)).getD s
  action i := as.getD i default
  start := rfl
  steps i hi := by
    obtain ⟨u, v, hu, hv, hnext⟩ := runSteps_take h hi
    rw [hu, hnext, List.getD_eq_getElem?_getD, List.getElem?_eq_getElem hi]
    exact hv

end Napqes
