import Napqes.Rust.Proofs.PostGate

/-!
# The self-test gate does not deadlock

`generate_nonce_with_crng_check` takes `POST_LOCK` under `PREV_NONCE`, and nobody who holds
`POST_LOCK` waits for a lock: a self-test that calls `require_post` is let through by `IN_POST`. So
once no new calls are made, every call returns, however the threads are scheduled.
-/

namespace Napqes.Rust

/-! ## Work left -/

def RunPc.work : RunPc → Nat
  | .lock => 9
  | .load => 8
  | .storeRunning => 7
  | .setInPost => 6
  | .tests => 5
  | .storeResult _ => 4
  | .clearInPost _ => 3
  | .unlock _ => 2
  | .returned _ => 1

def ErrorPc.work : ErrorPc → Nat
  | .lock => 3
  | .store => 2
  | .unlock => 1

def GatePc.work : GatePc → Nat
  | .testInPost => 6
  | .firstLoad => 5
  | .lock => 4
  | .lockedLoad => 3
  | .loadInPost | .secondLoad | .unlock _ => 2
  | .returned _ => 1

def NoncePc.work : NoncePc → Nat
  | .lock _ => 7
  | .compare _ => 6
  | .store _ => 3
  | .unlock _ => 2
  | .returned _ => 1

/-- How many operations a thread has left at most. A nested call goes back to the self-tests, and
`enter_error_state` may go back to the nonce. -/
def Pc.work : Pc → Nat
  | .idle => 0
  | .run pc => pc.work
  | .error pc fromNonce => pc.work + if fromNonce then 2 else 0
  | .gate nested pc => pc.work + if nested then 5 else 0
  | .nonce pc => pc.work

/-- Not the beginning of a call. -/
def NoCall : ModuleAction → Prop
  | .testsReturn .. | .testsPanic _ | .step _ => True
  | .callRun _ | .callError _ | .callGate _ | .callNonce .. => False

namespace Module

variable {s t : Module} {tid : Nat}

/-! ## Each operation -/

theorem work_stepRun {pc : RunPc} (h : s.stepRun tid pc = some t) :
    ∃ pc', t.pc = Function.update s.pc tid pc' ∧ pc'.work < (Pc.run pc).work := by
  cases pc with
  | lock =>
      obtain ⟨-, ⟨⟩⟩ := Option.ite_none_right_eq_some.mp h
      exact ⟨_, rfl, by decide⟩
  | load =>
      cases h
      refine ⟨_, rfl, ?_⟩
      split
      · exact (by decide : 2 < 8)
      · exact (by decide : 7 < 8)
  | tests => cases h
  | storeRunning | setInPost | storeResult | clearInPost | unlock | returned =>
      cases h
      exact ⟨_, rfl, by simp [Pc.work, RunPc.work]⟩

theorem work_stepError {pc : ErrorPc} {fromNonce : Bool}
    (h : s.stepError tid fromNonce pc = some t) :
    ∃ pc', t.pc = Function.update s.pc tid pc' ∧ pc'.work < (Pc.error pc fromNonce).work := by
  cases pc with
  | lock =>
      obtain ⟨-, ⟨⟩⟩ := Option.ite_none_right_eq_some.mp h
      exact ⟨_, rfl, by simp [Pc.work, ErrorPc.work]⟩
  | store =>
      cases h
      exact ⟨_, rfl, by simp [Pc.work, ErrorPc.work]⟩
  | unlock =>
      cases h
      cases fromNonce with
      | true => exact ⟨_, rfl, by decide⟩
      | false => exact ⟨_, rfl, by decide⟩

theorem work_stepGate {pc : GatePc} {nested : Bool} (h : s.stepGate tid nested pc = some t) :
    ∃ pc', t.pc = Function.update s.pc tid pc' ∧ pc'.work < (Pc.gate nested pc).work := by
  cases pc with
  | testInPost =>
      cases h
      refine ⟨_, rfl, ?_⟩
      split
      · simp [Pc.work, GatePc.work]
      · simp [Pc.work, GatePc.work]
  | firstLoad =>
      cases h
      refine ⟨_, rfl, ?_⟩
      split
      · simp [Pc.work, GatePc.work]
      · simp [Pc.work, GatePc.work]
  | lock =>
      obtain ⟨-, ⟨⟩⟩ := Option.ite_none_right_eq_some.mp h
      exact ⟨_, rfl, by simp [Pc.work, GatePc.work]⟩
  | returned result =>
      cases h
      refine ⟨_, rfl, ?_⟩
      split
      · simp [Pc.work, RunPc.work, GatePc.work, *]
      · simp [Pc.work, GatePc.work, *]
  | loadInPost | lockedLoad | unlock | secondLoad =>
      cases h
      exact ⟨_, rfl, by simp [Pc.work, GatePc.work]⟩

theorem work_stepNonce {pc : NoncePc} (h : s.stepNonce tid pc = some t) :
    ∃ pc', t.pc = Function.update s.pc tid pc' ∧ pc'.work < (Pc.nonce pc).work := by
  cases pc with
  | lock nonce =>
      obtain ⟨-, ⟨⟩⟩ := Option.ite_none_right_eq_some.mp h
      exact ⟨_, rfl, by simp [Pc.work, NoncePc.work]⟩
  | compare nonce =>
      cases h
      refine ⟨_, rfl, ?_⟩
      split
      · exact (by decide : 5 < 6)
      · exact (by decide : 3 < 6)
  | store | unlock | returned =>
      cases h
      exact ⟨_, rfl, by simp [Pc.work, NoncePc.work]⟩

/-- An operation leaves the thread with less to do. -/
theorem work_next {a : ModuleAction} (h : s.next a = some t) (ha : NoCall a) :
    ∃ pc', t.pc = Function.update s.pc (tidOf a) pc' ∧ pc'.work < (s.pc (tidOf a)).work := by
  cases a with
  | testsReturn tid result =>
      obtain ⟨hpc, ⟨⟩⟩ := Option.ite_none_right_eq_some.mp h
      exact ⟨_, rfl, by rw [tidOf, hpc]; simp [Pc.work, RunPc.work]⟩
  | testsPanic tid =>
      obtain ⟨hpc, ⟨⟩⟩ := Option.ite_none_right_eq_some.mp h
      exact ⟨_, rfl, by rw [tidOf, hpc]; decide⟩
  | step tid =>
      rw [Module.next] at h
      rw [tidOf]
      split at h
      case h_1 => cases h
      case h_2 pc hpc => exact hpc ▸ work_stepRun h
      case h_3 pc fromNonce hpc => exact hpc ▸ work_stepError h
      case h_4 nested pc hpc => exact hpc ▸ work_stepGate h
      case h_5 pc hpc => exact hpc ▸ work_stepNonce h
  | callRun | callError | callGate | callNonce => exact absurd ha id

/-! ## All threads -/

/-- The threads that are in a call are among finitely many, and this is the work they have left. -/
structure WorkLeft (threads : Finset Nat) (s : Module) (work : Nat) : Prop where
  idle : ∀ tid, tid ∉ threads → s.pc tid = .idle
  sum : work = ∑ tid ∈ threads, (s.pc tid).work

theorem WorkLeft.next {threads : Finset Nat} {work : Nat} (h : WorkLeft threads s work)
    {a : ModuleAction} (hnext : s.next a = some t) (ha : NoCall a) :
    ∃ work', work' < work ∧ WorkLeft threads t work' := by
  obtain ⟨pc', hpc, hlt⟩ := work_next hnext ha
  have hmem : tidOf a ∈ threads := by
    by_contra hnot
    rw [h.idle _ hnot] at hlt
    exact absurd hlt (Nat.not_lt_zero _)
  refine ⟨∑ tid ∈ threads, (t.pc tid).work, ?_, ?_, rfl⟩
  · rw [h.sum]
    apply Finset.sum_lt_sum
    · intro tid _
      rw [hpc, Function.update_apply]
      split
      case isTrue heq => exact heq ▸ Nat.le_of_lt hlt
      case isFalse => exact Nat.le_refl _
    · refine ⟨tidOf a, hmem, ?_⟩
      rw [hpc, Function.update_self]
      exact hlt
  · intro tid hnot
    rw [hpc, Function.update_of_ne (by rintro rfl; exact hnot hmem)]
    exact h.idle tid hnot

/-! ## The locks -/

/-- The thread holds `PREV_NONCE`. -/
def holdsPrev : Pc → Bool
  | .nonce (.compare _) | .nonce (.store _) | .nonce (.unlock _) => true
  | .error _ fromNonce => fromNonce
  | _ => false

/-- The owner of `PREV_NONCE` is where it may unlock it. -/
def PrevOwned (s : Module) : Prop := ∀ tid, s.prevLock = some tid → holdsPrev (s.pc tid) = true

/-- An operation that does not touch `PREV_NONCE`. -/
theorem PrevOwned.of_same (h : PrevOwned s) {pc' : Pc}
    (hpc : t.pc = Function.update s.pc tid pc') (hlock : t.prevLock = s.prevLock)
    (hholds : holdsPrev (s.pc tid) = true → holdsPrev pc' = true) : PrevOwned t := by
  intro u hu
  rw [hlock] at hu
  rw [hpc, Function.update_apply]
  split
  case isTrue heq =>
    subst heq
    exact hholds (h u hu)
  case isFalse => exact h u hu

theorem PrevOwned.stepNonce (h : PrevOwned s) {pc : NoncePc} (hpc : s.pc tid = .nonce pc)
    (hstep : s.stepNonce tid pc = some t) : PrevOwned t := by
  cases pc with
  | lock nonce =>
      obtain ⟨-, ⟨⟩⟩ := Option.ite_none_right_eq_some.mp hstep
      intro u hu
      obtain rfl : tid = u := Option.some.inj hu
      exact congrArg holdsPrev (pc_setPc s tid (.nonce (.compare nonce)))
  | compare nonce =>
      cases hstep
      refine h.of_same rfl rfl ?_
      intro _
      split
      · rfl
      · rfl
  | store nonce =>
      cases hstep
      exact h.of_same rfl rfl fun _ => rfl
  | unlock result =>
      cases hstep
      intro u hu
      cases hu
  | returned result =>
      cases hstep
      refine h.of_same rfl rfl ?_
      rw [hpc]
      exact fun hholds => hholds

theorem PrevOwned.stepError (h : PrevOwned s) {pc : ErrorPc} {fromNonce : Bool}
    (hpc : s.pc tid = .error pc fromNonce) (hstep : s.stepError tid fromNonce pc = some t) :
    PrevOwned t := by
  have hholds : holdsPrev (s.pc tid) = fromNonce := by rw [hpc]; rfl
  cases pc with
  | lock =>
      obtain ⟨-, ⟨⟩⟩ := Option.ite_none_right_eq_some.mp hstep
      exact h.of_same rfl rfl fun htrue => hholds.symm.trans htrue
  | store =>
      cases hstep
      exact h.of_same rfl rfl fun htrue => hholds.symm.trans htrue
  | unlock =>
      cases hstep
      refine h.of_same rfl rfl ?_
      rw [hholds]
      rintro rfl
      rfl

/-- Outside of `generate_nonce_with_crng_check` and what it calls, `PREV_NONCE` is left alone. -/
theorem prevLock_stepRun {pc : RunPc} (h : s.stepRun tid pc = some t) :
    t.prevLock = s.prevLock ∧ ∃ pc', t.pc = Function.update s.pc tid pc' := by
  obtain ⟨pc', hpc', -⟩ := work_stepRun h
  refine ⟨?_, pc', hpc'⟩
  cases pc with
  | lock =>
      obtain ⟨-, ⟨⟩⟩ := Option.ite_none_right_eq_some.mp h
      rfl
  | tests => cases h
  | load | storeRunning | setInPost | storeResult | clearInPost | unlock | returned =>
      cases h
      rfl

theorem prevLock_stepGate {pc : GatePc} {nested : Bool} (h : s.stepGate tid nested pc = some t) :
    t.prevLock = s.prevLock ∧ ∃ pc', t.pc = Function.update s.pc tid pc' := by
  obtain ⟨pc', hpc', -⟩ := work_stepGate h
  refine ⟨?_, pc', hpc'⟩
  cases pc with
  | lock =>
      obtain ⟨-, ⟨⟩⟩ := Option.ite_none_right_eq_some.mp h
      rfl
  | testInPost | loadInPost | firstLoad | lockedLoad | unlock | secondLoad | returned =>
      cases h
      rfl

theorem PrevOwned.next (h : PrevOwned s) {a : ModuleAction} (hnext : s.next a = some t) :
    PrevOwned t := by
  -- A thread that does not hold the lock may go anywhere.
  have hfree : ∀ {tid : Nat} {pc pc' : Pc}, s.pc tid = pc → holdsPrev pc = false →
      t.pc = Function.update s.pc tid pc' → t.prevLock = s.prevLock → PrevOwned t := by
    intro tid pc pc' hpc hnot hplace hlock
    refine h.of_same hplace hlock ?_
    rw [hpc, hnot]
    exact nofun
  cases a with
  | callRun tid =>
      obtain ⟨hpc, ⟨⟩⟩ := Option.ite_none_right_eq_some.mp hnext
      exact hfree hpc rfl rfl rfl
  | callError tid =>
      obtain ⟨hpc, ⟨⟩⟩ := Option.ite_none_right_eq_some.mp hnext
      exact hfree hpc rfl rfl rfl
  | callNonce tid nonce =>
      obtain ⟨hpc, ⟨⟩⟩ := Option.ite_none_right_eq_some.mp hnext
      exact hfree hpc rfl rfl rfl
  | testsReturn tid result =>
      obtain ⟨hpc, ⟨⟩⟩ := Option.ite_none_right_eq_some.mp hnext
      exact hfree hpc rfl rfl rfl
  | testsPanic tid =>
      obtain ⟨hpc, ⟨⟩⟩ := Option.ite_none_right_eq_some.mp hnext
      exact hfree hpc rfl rfl rfl
  | callGate tid =>
      rw [Module.next] at hnext
      split at hnext
      case isTrue hpc =>
        cases hnext
        exact hfree hpc rfl rfl rfl
      case isFalse =>
        obtain ⟨hpc, ⟨⟩⟩ := Option.ite_none_right_eq_some.mp hnext
        exact hfree hpc rfl rfl rfl
  | step tid =>
      rw [Module.next] at hnext
      split at hnext
      case h_1 => cases hnext
      case h_2 pc hpc =>
        obtain ⟨hlock, pc', hplace⟩ := prevLock_stepRun hnext
        exact hfree hpc rfl hplace hlock
      case h_3 pc fromNonce hpc => exact h.stepError hpc hnext
      case h_4 nested pc hpc =>
        obtain ⟨hlock, pc', hplace⟩ := prevLock_stepGate hnext
        exact hfree hpc rfl hplace hlock
      case h_5 pc hpc => exact h.stepNonce hpc hnext

/-! ## Nobody waits for ever -/

/-- The owner of `POST_LOCK` waits for nothing. -/
theorem Inv.owner_enabled (hs : Inv s) (h : (s.pc tid).holdsPost = true) :
    ∃ a, NoCall a ∧ (s.next a).isSome := by
  have hknows := hs.knows tid
  cases hpc : s.pc tid with
  | idle => simp [hpc, Pc.holdsPost] at h
  | nonce pc => simp [hpc, Pc.holdsPost] at h
  | run pc =>
      cases pc with
      | lock => simp [hpc, Pc.holdsPost] at h
      | returned => simp [hpc, Pc.holdsPost] at h
      | tests => exact ⟨.testsPanic tid, trivial, by simp [Module.next, hpc]⟩
      | load | storeRunning | setInPost | storeResult | clearInPost | unlock =>
          exact ⟨.step tid, trivial, by simp [Module.next, hpc, Module.stepRun]⟩
  | error pc fromNonce =>
      cases pc with
      | lock => simp [hpc, Pc.holdsPost] at h
      | store | unlock =>
          exact ⟨.step tid, trivial, by simp [Module.next, hpc, Module.stepError]⟩
  | gate nested pc =>
      refine ⟨.step tid, trivial, ?_⟩
      cases nested with
      | true =>
          -- A nested call does not get as far as the lock.
          rw [hpc] at hknows
          obtain ⟨-, rfl | rfl | ⟨result, rfl⟩⟩ := hknows
          all_goals simp [Module.next, hpc, Module.stepGate]
      | false =>
          cases pc with
          | lockedLoad | unlock => simp [Module.next, hpc, Module.stepGate]
          | _ => simp [hpc, Pc.holdsPost] at h

/-- With `POST_LOCK` free, a thread in a call can go on, unless it waits for `PREV_NONCE`. -/
theorem enabled_of_free (hfree : s.postLock = none) (hbusy : s.pc tid ≠ .idle)
    (hprev : ∀ nonce, s.pc tid = .nonce (.lock nonce) → s.prevLock = none) :
    ∃ a, NoCall a ∧ (s.next a).isSome := by
  cases hpc : s.pc tid with
  | idle => exact absurd hpc hbusy
  | run pc =>
      cases pc with
      | tests => exact ⟨.testsPanic tid, trivial, by simp [Module.next, hpc]⟩
      | _ => exact ⟨.step tid, trivial, by simp [Module.next, hpc, Module.stepRun, hfree]⟩
  | error pc fromNonce =>
      refine ⟨.step tid, trivial, ?_⟩
      cases pc with
      | _ => simp [Module.next, hpc, Module.stepError, hfree]
  | gate nested pc =>
      refine ⟨.step tid, trivial, ?_⟩
      cases pc with
      | _ => simp [Module.next, hpc, Module.stepGate, hfree]
  | nonce pc =>
      refine ⟨.step tid, trivial, ?_⟩
      cases pc with
      | lock nonce => simp [Module.next, hpc, Module.stepNonce, hprev nonce hpc]
      | _ => simp [Module.next, hpc, Module.stepNonce]

/-- As long as a thread is in a call, some thread can go on. -/
theorem Inv.enabled (hs : Inv s) (hprev : PrevOwned s) (hbusy : s.pc tid ≠ .idle) :
    ∃ a, NoCall a ∧ (s.next a).isSome := by
  cases hlock : s.postLock with
  | some owner => exact hs.owner_enabled ((hs.owner owner).mpr hlock)
  | none =>
      cases hnonce : s.prevLock with
      | none => exact enabled_of_free hlock hbusy fun _ _ => hnonce
      | some owner =>
          -- The owner of `PREV_NONCE` is past taking it.
          have hholds := hprev owner hnonce
          have hne : ∀ pc, holdsPrev pc = false → s.pc owner ≠ pc := by
            rintro pc hnot rfl
            rw [hnot] at hholds
            cases hholds
          exact @enabled_of_free s owner hlock (hne _ rfl) fun nonce hwait =>
            absurd hwait (hne _ rfl)

/-! ## Main result -/

/-- What holds in every reachable state. -/
theorem reachable_cases (hrun : Run (fun s a t => Module.next s a = some t) (fun _ _ => True)
    init s) : Inv s ∧ PrevOwned s ∧ ∃ threads : Finset Nat,
      ∀ tid, tid ∉ threads → s.pc tid = .idle := by
  refine Run.invariant (I := fun s => Inv s ∧ PrevOwned s ∧ ∃ threads : Finset Nat,
    ∀ tid, tid ∉ threads → s.pc tid = .idle) ?_ hrun ⟨.init, nofun, ∅, fun _ _ => rfl⟩
  rintro s a t hstep - ⟨hinv, hprev, threads, hidle⟩
  refine ⟨hinv.step hstep, hprev.next hstep, insert (tidOf a) threads, ?_⟩
  intro tid hnot
  rw [Finset.mem_insert, not_or] at hnot
  rw [hinv.pc_unchanged hstep (Ne.symm hnot.1)]
  exact hidle tid hnot.2

/-- From every reachable state, once no new calls are made, there is a bound on what the threads
still do, in whatever order, and they do not stop before every call has returned. -/
theorem calls_return (s : Module)
    (hrun : Run (fun s a t => Module.next s a = some t) (fun _ _ => True) init s) :
    ∃ bound, ∀ as t, (∀ a ∈ as, NoCall a) → runSteps Module.next s as = some t →
      as.length ≤ bound ∧
        ((∃ a, NoCall a ∧ (Module.next t a).isSome) ∨ ∀ tid, t.pc tid = .idle) := by
  obtain ⟨-, -, threads, hidle⟩ := reachable_cases hrun
  refine ⟨∑ tid ∈ threads, (s.pc tid).work, ?_⟩
  intro as t has hsteps
  obtain ⟨work, hlen, -⟩ := @runSteps_use_up Module ModuleAction Module.next (WorkLeft threads)
    NoCall (fun _ _ _ _ hnext ha h => h.next hnext ha) as s t has hsteps _ ⟨hidle, rfl⟩
  refine ⟨by omega, ?_⟩
  obtain ⟨hinv, hprev, -⟩ := reachable_cases
    (hrun.trans (run_of_runSteps (fun _ _ _ => trivial) hsteps))
  by_cases hbusy : ∃ tid, t.pc tid ≠ .idle
  · obtain ⟨tid, htid⟩ := hbusy
    exact Or.inl (hinv.enabled hprev htid)
  · exact Or.inr fun tid => by_contra fun hne => hbusy ⟨tid, hne⟩

/-- Two threads run the self-tests at once, and a third one draws a nonce. -/
theorem calls_return_of_three :
    ∃ s, Run (fun s a t => Module.next s a = some t) (fun _ _ => True) init s ∧
      s.pc 0 = .run .load ∧ s.pc 1 = .run .lock ∧ s.pc 2 = .nonce (.lock (.ofList _ [])) ∧
      ∃ bound, ∀ as t, (∀ a ∈ as, NoCall a) → runSteps Module.next s as = some t →
        as.length ≤ bound ∧
          ((∃ a, NoCall a ∧ (Module.next t a).isSome) ∨ ∀ tid, t.pc tid = .idle) := by
  obtain ⟨s, hs, h0, h1, h2⟩ : ∃ s, runSteps Module.next init
      [.callRun 0, .callRun 1, .callNonce 2 (.ofList _ []), .step 0] = some s ∧
      s.pc 0 = .run .load ∧ s.pc 1 = .run .lock ∧ s.pc 2 = .nonce (.lock (.ofList _ [])) :=
    ⟨_, rfl, rfl, rfl, rfl⟩
  have hrun := @run_of_runSteps _ _ (fun _ _ => True) _ _ _ _ (fun _ _ _ => trivial) hs
  exact ⟨s, hrun, h0, h1, h2, calls_return s hrun⟩

end Module

end Napqes.Rust
