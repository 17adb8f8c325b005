import Napqes.Rust.Proofs.SelfTest

/-!
# What the self-test gate admits

The error state is sticky, and the gate admits a thread only if the self-tests have passed. It does
not always admit one after they have passed: a re-run that stores RUNNING between the two loads of
`require_post` makes it refuse.
-/

namespace Napqes.Rust

namespace Module

variable {s t : Module} {tid : Nat}

/-! ## Steps of one thread -/

theorem pc_setPc (s : Module) (tid : Nat) (pc : Pc) : (s.setPc tid pc).pc tid = pc :=
  Function.update_self ..

/-- A thread's place changes by its own actions only. -/
theorem Inv.pc_unchanged (hs : Inv s) {a : ModuleAction} (h : s.next a = some t)
    (hne : tidOf a ≠ tid) : t.pc tid = s.pc tid := by
  obtain ⟨pc', hmoves⟩ := hs.next h
  exact hmoves.pc_other (Ne.symm hne)

/-- In the middle of a call, a thread's only action is its next operation. -/
theorem eq_step_of_busy {a : ModuleAction} (h : s.next a = some t) (htid : tidOf a = tid)
    (hidle : s.pc tid ≠ .idle) (htests : s.pc tid ≠ .run .tests) : a = .step tid := by
  cases a with
  | step u => exact congrArg ModuleAction.step htid
  | callGate u =>
      obtain rfl : u = tid := htid
      rw [Module.next, if_neg hidle, if_neg htests] at h
      cases h
  | callRun u =>
      obtain rfl : u = tid := htid
      rw [Module.next, if_neg hidle] at h
      cases h
  | callError u =>
      obtain rfl : u = tid := htid
      rw [Module.next, if_neg hidle] at h
      cases h
  | callNonce u nonce =>
      obtain rfl : u = tid := htid
      rw [Module.next, if_neg hidle] at h
      cases h
  | testsReturn u result =>
      obtain rfl : u = tid := htid
      rw [Module.next, if_neg htests] at h
      cases h
  | testsPanic u =>
      obtain rfl : u = tid := htid
      rw [Module.next, if_neg htests] at h
      cases h

/-- The next operation of `require_post`, outside of the self-tests. -/
theorem Inv.gate_cases (hs : Inv s) {a : ModuleAction} (h : s.next a = some t) {pc : GatePc}
    (hpc : s.pc tid = .gate false pc) :
    t.pc tid = .gate false pc ∨ s.stepGate tid false pc = some t := by
  by_cases htid : tidOf a = tid
  · right
    rw [eq_step_of_busy h htid (by rw [hpc]; simp) (by rw [hpc]; simp), Module.next, hpc] at h
    exact h
  · left
    rw [hs.pc_unchanged h htid, hpc]

/-- The next operation of `run_power_on_self_tests`, outside of the self-tests. -/
theorem Inv.run_cases (hs : Inv s) {a : ModuleAction} (h : s.next a = some t) {pc : RunPc}
    (hpc : s.pc tid = .run pc) (htests : pc ≠ .tests) :
    t.pc tid = .run pc ∨ s.stepRun tid pc = some t := by
  by_cases htid : tidOf a = tid
  · right
    rw [eq_step_of_busy h htid (by rw [hpc]; simp) (by rw [hpc]; simpa using htests), Module.next,
      hpc] at h
    exact h
  · left
    rw [hs.pc_unchanged h htid, hpc]

/-- The lock has one owner. -/
theorem Inv.owner_unique (hs : Inv s) {u v : Nat} (hu : (s.pc u).holdsPost = true)
    (hv : (s.pc v).holdsPost = true) : u = v := by
  have howner := (hs.owner u).mp hu
  rw [(hs.owner v).mp hv] at howner
  exact (Option.some.inj howner).symm

/-- The operations of `require_post` on a thread that runs no self-tests. -/
theorem stepGate_cases {pc pc' : GatePc} (h : s.stepGate tid false pc = some t)
    (hflag : s.inPost tid = false) (hpc : pc ≠ .loadInPost) (hpc' : t.pc tid = .gate false pc') :
    pc = .testInPost ∧ pc' = .firstLoad ∨
      pc = .firstLoad ∧ s.postState = .running ∧ pc' = .lock ∨
      pc = .firstLoad ∧ s.postState ≠ .running ∧ pc' = .secondLoad ∨
      pc = .lock ∧ pc' = .lockedLoad ∨
      pc = .lockedLoad ∧ pc' = .unlock (admitState s.postState false) ∨
      (∃ result, pc = .unlock result ∧ pc' = .returned result) ∨
      pc = .secondLoad ∧ pc' = .returned (admitState s.postState false) := by
  have hplace : ∀ pc'', t.pc = Function.update s.pc tid (.gate false pc'') → pc'' = pc' := by
    intro pc'' ht
    rw [ht, Function.update_self] at hpc'
    cases hpc'
    rfl
  cases pc with
  | testInPost =>
      rw [stepGate, hflag] at h
      cases h
      exact Or.inl ⟨rfl, (hplace _ rfl).symm⟩
  | loadInPost => exact absurd rfl hpc
  | firstLoad =>
      cases h
      have hnext := hplace _ rfl
      by_cases hrunning : s.postState = .running
      · rw [if_pos hrunning] at hnext
        exact Or.inr (Or.inl ⟨rfl, hrunning, hnext.symm⟩)
      · rw [if_neg hrunning] at hnext
        exact Or.inr (Or.inr (Or.inl ⟨rfl, hrunning, hnext.symm⟩))
  | lock =>
      rw [stepGate] at h
      split at h
      case isTrue =>
        cases h
        exact Or.inr (Or.inr (Or.inr (Or.inl ⟨rfl, (hplace _ rfl).symm⟩)))
      case isFalse => cases h
  | lockedLoad =>
      cases h
      exact Or.inr (Or.inr (Or.inr (Or.inr (Or.inl ⟨rfl, (hplace _ rfl).symm⟩))))
  | unlock result =>
      cases h
      exact Or.inr (Or.inr (Or.inr (Or.inr (Or.inr (Or.inl
        ⟨result, rfl, (hplace _ rfl).symm⟩)))))
  | secondLoad =>
      cases h
      exact Or.inr (Or.inr (Or.inr (Or.inr (Or.inr (Or.inr ⟨rfl, (hplace _ rfl).symm⟩)))))
  | returned result =>
      cases h
      rw [pc_setPc] at hpc'
      cases hpc'

/-- `run_power_on_self_tests` stores `POST_STATE` in two of its operations. -/
theorem postState_stepRun {pc : RunPc} (h : s.stepRun tid pc = some t) :
    t.postState = s.postState ∨ pc = .storeRunning ∧ t.postState = .running ∨
      ∃ result, pc = .storeResult result ∧ t.postState = resultState (some result) := by
  cases pc with
  | storeRunning =>
      cases h
      exact Or.inr (Or.inl ⟨rfl, rfl⟩)
  | storeResult result =>
      cases h
      refine Or.inr (Or.inr ⟨result, rfl, ?_⟩)
      cases result with
      | ok _ => rfl
      | error _ => rfl
  | lock =>
      rw [stepRun] at h
      split at h
      case isTrue =>
        cases h
        exact Or.inl rfl
      case isFalse => cases h
  | tests => cases h
  | load | setInPost | clearInPost result | unlock result | returned result =>
      cases h
      exact Or.inl rfl

/-- `enter_error_state` stores `POST_STATE` in one of its operations. -/
theorem postState_stepError {pc : ErrorPc} {fromNonce : Bool}
    (h : s.stepError tid fromNonce pc = some t) :
    t.postState = s.postState ∨ pc = .store ∧ t.postState = .failed := by
  cases pc with
  | store =>
      cases h
      exact Or.inr ⟨rfl, rfl⟩
  | lock =>
      rw [stepError] at h
      split at h
      case isTrue =>
        cases h
        exact Or.inl rfl
      case isFalse => cases h
  | unlock =>
      cases h
      exact Or.inl rfl

/-- `require_post` only reads `POST_STATE`. -/
theorem postState_stepGate {pc : GatePc} {nested : Bool} (h : s.stepGate tid nested pc = some t) :
    t.postState = s.postState := by
  cases pc with
  | lock =>
      rw [stepGate] at h
      split at h
      case isTrue =>
        cases h
        rfl
      case isFalse => cases h
  | _ =>
      cases h
      rfl

/-- `generate_nonce_with_crng_check` leaves `POST_STATE` to `enter_error_state`. -/
theorem postState_stepNonce {pc : NoncePc} (h : s.stepNonce tid pc = some t) :
    t.postState = s.postState := by
  cases pc with
  | lock nonce =>
      rw [stepNonce] at h
      split at h
      case isTrue =>
        cases h
        rfl
      case isFalse => cases h
  | _ =>
      cases h
      rfl

/-- A call, or the return of the self-tests, stores nothing. -/
theorem postState_next_of_ne_step {a : ModuleAction} (h : s.next a = some t)
    (ha : ∀ tid, a ≠ .step tid) : t.postState = s.postState := by
  cases a with
  | step tid => exact absurd rfl (ha tid)
  | callGate tid =>
      rw [next] at h
      split at h
      case isTrue =>
        cases h
        rfl
      case isFalse =>
        split at h
        case isTrue =>
          cases h
          rfl
        case isFalse => cases h
  | _ =>
      rw [next] at h
      split at h
      case isTrue =>
        cases h
        rfl
      case isFalse => cases h

/-- What stores `POST_STATE`. -/
theorem postState_next {a : ModuleAction} (h : s.next a = some t) :
    t.postState = s.postState ∨ ∃ tid, a = .step tid ∧
      (s.pc tid = .run .storeRunning ∧ t.postState = .running ∨
        (∃ result, s.pc tid = .run (.storeResult result) ∧
          t.postState = resultState (some result)) ∨
        ∃ fromNonce, s.pc tid = .error .store fromNonce ∧ t.postState = .failed) := by
  by_cases hstep : ∃ tid, a = .step tid
  · obtain ⟨tid, rfl⟩ := hstep
    rw [next] at h
    split at h
    case h_1 => cases h
    case h_2 pc hpc =>
      rcases postState_stepRun h with hsame | ⟨rfl, ht⟩ | ⟨result, rfl, ht⟩
      · exact Or.inl hsame
      · exact Or.inr ⟨tid, rfl, Or.inl ⟨hpc, ht⟩⟩
      · exact Or.inr ⟨tid, rfl, Or.inr (Or.inl ⟨result, hpc, ht⟩)⟩
    case h_3 pc fromNonce hpc =>
      rcases postState_stepError h with hsame | ⟨rfl, ht⟩
      · exact Or.inl hsame
      · exact Or.inr ⟨tid, rfl, Or.inr (Or.inr ⟨fromNonce, hpc, ht⟩)⟩
    case h_4 nested pc hpc => exact Or.inl (postState_stepGate h)
    case h_5 pc hpc => exact Or.inl (postState_stepNonce h)
  · exact Or.inl (postState_next_of_ne_step h fun tid ha => hstep ⟨tid, ha⟩)

/-- The thread is between the two stores of a run. -/
def testing : Pc → Bool
  | .run .setInPost | .run .tests | .run (.storeResult _) => true
  | .gate nested _ => nested
  | _ => false

theorem holdsPost_of_testing {pc : Pc} (h : testing pc = true) : pc.holdsPost = true := by
  cases pc with
  | run pc =>
      cases pc with
      | setInPost => rfl
      | tests => rfl
      | storeResult result => rfl
      | _ => cases h
  | gate nested pc =>
      cases nested with
      | true => rfl
      | false => cases h
  | _ => cases h

/-- In the self-tests, a test calls `require_post`, or the tests end. -/
theorem tests_cases {a : ModuleAction} (h : s.next a = some t) (htid : tidOf a = tid)
    (htests : s.pc tid = .run .tests) :
    (∃ pc, t.pc tid = .gate true pc) ∨
      (∃ result, a = .testsReturn tid result ∧ t.pc tid = .run (.storeResult result)) ∨
      (a = .testsPanic tid ∧ t.pc tid = .run (.clearInPost none)) := by
  cases a with
  | callGate u =>
      obtain rfl : u = tid := htid
      rw [Module.next, htests, if_neg (by simp), if_pos rfl] at h
      cases h
      exact Or.inl ⟨_, pc_setPc ..⟩
  | testsReturn u result =>
      obtain rfl : u = tid := htid
      rw [Module.next, if_pos htests] at h
      cases h
      exact Or.inr (Or.inl ⟨result, rfl, pc_setPc ..⟩)
  | testsPanic u =>
      obtain rfl : u = tid := htid
      rw [Module.next, if_pos htests] at h
      cases h
      exact Or.inr (Or.inr ⟨rfl, pc_setPc ..⟩)
  | step u | callRun u | callError u | callNonce u nonce =>
      obtain rfl : u = tid := htid
      rw [Module.next, htests] at h
      cases h

/-- The `require_post` that a self-test calls takes the branch of `IN_POST`. -/
theorem Inv.nestedGate_cases (hs : Inv s) {pc : GatePc} (hpc : s.pc tid = .gate true pc)
    (h : s.stepGate tid true pc = some t) :
    t.pc tid = .run .tests ∨ ∃ pc, t.pc tid = .gate true pc := by
  have hknows := hs.knows tid
  have hflag := hs.flag tid
  rw [hpc] at hknows hflag
  obtain ⟨-, rfl | rfl | ⟨result, rfl⟩⟩ := hknows
  · rw [Module.stepGate, show s.inPost tid = true from hflag] at h
    cases h
    exact Or.inr ⟨_, pc_setPc ..⟩
  · cases h
    exact Or.inr ⟨_, pc_setPc ..⟩
  · cases h
    exact Or.inl (pc_setPc ..)

/-- Where a thread between the two stores of a run is after a step. -/
theorem Inv.testing_cases (hs : Inv s) {a : ModuleAction} (h : s.next a = some t)
    (htest : testing (s.pc tid) = true) :
    t.pc tid = s.pc tid ∨ t.pc tid = .run .tests ∨ (∃ pc, t.pc tid = .gate true pc) ∨
      (∃ result, a = .testsReturn tid result ∧ t.pc tid = .run (.storeResult result)) ∨
      (a = .testsPanic tid ∧ t.pc tid = .run (.clearInPost none)) ∨
      ∃ result, s.pc tid = .run (.storeResult result) ∧ a = .step tid ∧
        t.pc tid = .run (.clearInPost (some result)) := by
  by_cases htid : tidOf a = tid
  case neg => exact Or.inl (hs.pc_unchanged h htid)
  case pos =>
    right
    by_cases htests : s.pc tid = .run .tests
    case pos =>
      rcases tests_cases h htid htests with hgate | hreturn | hpanic
      · exact Or.inr (Or.inl hgate)
      · exact Or.inr (Or.inr (Or.inl hreturn))
      · exact Or.inr (Or.inr (Or.inr (Or.inl hpanic)))
    case neg =>
      have hidle : s.pc tid ≠ .idle := by
        intro hidle
        rw [hidle] at htest
        cases htest
      obtain rfl := eq_step_of_busy h htid hidle htests
      rw [Module.next] at h
      split at h
      case h_1 => cases h
      case h_2 pc hpc =>
        rw [hpc] at htest htests
        cases pc with
        | setInPost =>
            cases h
            exact Or.inl (pc_setPc ..)
        | tests => exact absurd rfl htests
        | storeResult result =>
            cases h
            exact Or.inr (Or.inr (Or.inr (Or.inr ⟨result, hpc, rfl, pc_setPc ..⟩)))
        | _ => cases htest
      case h_3 pc fromNonce hpc =>
        rw [hpc] at htest
        cases htest
      case h_4 nested pc hpc =>
        rw [hpc] at htest
        obtain rfl : nested = true := htest
        exact (hs.nestedGate_cases hpc h).imp_right Or.inl
      case h_5 pc hpc =>
        rw [hpc] at htest
        cases htest

/-- A thread that is between the two stores of a run stays there, unless it stores or a self-test
panics. -/
theorem Inv.testing_next (hs : Inv s) {a : ModuleAction} (h : s.next a = some t)
    (htest : testing (s.pc tid) = true) (hpanic : a ≠ .testsPanic tid)
    (hstore : ∀ result, s.pc tid = .run (.storeResult result) → a ≠ .step tid) :
    testing (t.pc tid) = true := by
  rcases hs.testing_cases h htest with hpc | hpc | ⟨pc, hpc⟩ | ⟨result, -, hpc⟩ | ⟨ha, -⟩ |
    ⟨result, hpc, ha, -⟩
  · rw [hpc]
    exact htest
  · rw [hpc]
    rfl
  · rw [hpc]
    rfl
  · rw [hpc]
    rfl
  · exact absurd ha hpanic
  · exact absurd ha (hstore result hpc)

/-- A thread comes to store a result when its self-tests return. -/
theorem Inv.storeResult_next (hs : Inv s) {a : ModuleAction} (h : s.next a = some t)
    {result : Except SelfTestError Unit} (htest : testing (s.pc tid) = true)
    (hpc : t.pc tid = .run (.storeResult result)) :
    s.pc tid = .run (.storeResult result) ∨ a = .testsReturn tid result := by
  rcases hs.testing_cases h htest with hsame | htests | ⟨pc, hgate⟩ | ⟨result', ha, hstore⟩ |
    ⟨-, hclear⟩ | ⟨result', -, -, hclear⟩
  · left
    rw [← hsame]
    exact hpc
  · rw [htests] at hpc
    cases hpc
  · rw [hgate] at hpc
    cases hpc
  · rw [hstore] at hpc
    cases hpc
    exact Or.inr ha
  · rw [hclear] at hpc
    cases hpc
  · rw [hclear] at hpc
    cases hpc

end Module

/-! ## The error state -/

namespace ModuleExecution

variable (e : ModuleExecution)

theorem inv (i : Nat) (hi : i ≤ e.length) : (e.state i).Inv :=
  e.invariant Module.Inv.init (fun _ _ _ hstep hs => hs.step hstep) i hi

/-- FAILED is sticky. -/
theorem failed_stays {i j : Nat} (hij : i ≤ j) (hj : j ≤ e.length)
    (hi : (e.state i).postState = .failed) : (e.state j).postState = .failed := by
  refine e.induction_from (P := fun j => (e.state j).postState = .failed) hi ?_ j hij hj
  intro k _ hk hfailed
  obtain ⟨pc', hmoves⟩ := (e.inv k (Nat.le_of_lt hk)).next (e.steps k hk)
  exact hmoves.failed hfailed

/-- A thread is in one call of `run_power_on_self_tests` from after step `i` to `j`; the calls that
the self-tests make belong to it. -/
def InRun (tid i j : Nat) : Prop :=
  ∀ k, i < k → k ≤ j → (∃ pc, (e.state k).pc tid = .run pc) ∨
    ∃ pc, (e.state k).pc tid = .gate true pc

/-- A thread takes `POST_LOCK` for `run_power_on_self_tests` in step `i`. -/
def TakesLock (tid i : Nat) : Prop :=
  (e.state i).pc tid = .run .lock ∧ (e.state (i + 1)).pc tid = .run .load

/-- The places of a run that finds FAILED: it does not store, runs no self-test, and returns an
error. -/
inductive RunFails : Pc → Prop where
  | load : RunFails (.run .load)
  | unlock : RunFails (.run (.unlock (some (.error .notOperational))))
  | returned : RunFails (.run (.returned (some (.error .notOperational))))

/-- The next operation of such a run can always happen. -/
theorem RunFails.enabled {s : Module} {tid : Nat} (h : RunFails (s.pc tid)) :
    ∃ t, s.next (.step tid) = some t := by
  generalize hpc : s.pc tid = pc at h
  rw [Module.next, hpc]
  cases h with
  | load => exact ⟨_, rfl⟩
  | unlock => exact ⟨_, rfl⟩
  | returned => exact ⟨_, rfl⟩

/-- A run that takes the lock when FAILED is stored returns an error, two operations later. -/
theorem run_after_failed {tid i j : Nat} (hij : i < j) (hj : j ≤ e.length)
    (hfailed : (e.state i).postState = .failed) (hlock : e.TakesLock tid i)
    (hrun : e.InRun tid i j) : RunFails ((e.state j).pc tid) := by
  refine e.induction_from (P := fun k => k ≤ j → RunFails ((e.state k).pc tid)) ?_ ?_ j hij hj
    (Nat.le_refl j)
  · intro _
    rw [hlock.2]
    exact .load
  intro k hik hk ih hkj
  have hinv := e.inv k (Nat.le_of_lt hk)
  have hstep := e.steps k hk
  generalize hpc : (e.state k).pc tid = pc at ih
  cases ih (Nat.le_of_succ_le hkj) with
  | load =>
      have hstays := e.failed_stays (Nat.le_of_succ_le hik) (Nat.le_of_lt hk) hfailed
      rcases hinv.run_cases hstep hpc (by simp) with hsame | hnext
      · rw [hsame]
        exact .load
      · rw [Module.stepRun, if_pos hstays] at hnext
        rw [← Option.some.inj hnext, Module.pc_setPc]
        exact .unlock
  | unlock =>
      rcases hinv.run_cases hstep hpc (by simp) with hsame | hnext
      · rw [hsame]
        exact .unlock
      · have hplace : (e.state (k + 1)).pc tid =
            .run (.returned (some (.error .notOperational))) := by
          rw [← Option.some.inj hnext]
          exact Module.pc_setPc ..
        rw [hplace]
        exact .returned
  | returned =>
      rcases hinv.run_cases hstep hpc (by simp) with hsame | hnext
      · rw [hsame]
        exact .returned
      · have hidle : (e.state (k + 1)).pc tid = .idle := by
          rw [← Option.some.inj hnext]
          exact Module.pc_setPc ..
        rcases hrun (k + 1) (Nat.lt_succ_of_le (Nat.le_of_succ_le hik)) hkj with
          ⟨pc, hpc⟩ | ⟨pc, hpc⟩
        · rw [hidle] at hpc
          cases hpc
        · rw [hidle] at hpc
          cases hpc

/-! ## RUNNING and PASSED -/

/-- RUNNING is stored while a thread is between the two stores of a run, or after a panic. -/
theorem running_testing (j : Nat) (hj : j ≤ e.length)
    (hrunning : (e.state j).postState = .running) :
    (∃ tid, Module.testing ((e.state j).pc tid) = true) ∨
      ∃ i < j, ∃ tid, e.action i = .testsPanic tid := by
  refine e.induction (P := fun j => (e.state j).postState = .running →
    (∃ tid, Module.testing ((e.state j).pc tid) = true) ∨
      ∃ i < j, ∃ tid, e.action i = .testsPanic tid) ?_ ?_ j hj hrunning
  · intro h
    rw [e.start] at h
    cases h
  · intro k hk ih hnext
    have hinv := e.inv k (Nat.le_of_lt hk)
    have hstep := e.steps k hk
    rcases Module.postState_next hstep with hsame | ⟨tid, ha, hstore⟩
    · rcases ih (hsame ▸ hnext) with ⟨tid, htest⟩ | ⟨i, hi, hpanic⟩
      · by_cases hpanic : e.action k = .testsPanic tid
        · exact Or.inr ⟨k, Nat.lt_succ_self k, tid, hpanic⟩
        · refine Or.inl ⟨tid, hinv.testing_next hstep htest hpanic ?_⟩
          intro result hpc ha
          rw [ha, Module.next, hpc] at hstep
          rw [← Option.some.inj hstep] at hnext
          cases result with
          | ok _ => cases hnext
          | error _ => cases hnext
      · exact Or.inr ⟨i, Nat.lt_succ_of_lt hi, hpanic⟩
    · rcases hstore with ⟨hpc, -⟩ | ⟨result, -, hstate⟩ | ⟨fromNonce, -, hstate⟩
      · left
        refine ⟨tid, ?_⟩
        rw [ha, Module.next, hpc] at hstep
        rw [← Option.some.inj hstep]
        show Module.testing (((e.state k).setPc tid (.run .setInPost)).pc tid) = true
        rw [Module.pc_setPc]
        rfl
      · rw [hstate] at hnext
        cases result with
        | ok _ => cases hnext
        | error _ => cases hnext
      · rw [hstate] at hnext
        cases hnext

/-- RUNNING is left behind by a panic only. -/
theorem running_unlocked (j : Nat) (hj : j ≤ e.length)
    (hrunning : (e.state j).postState = .running) (hfree : (e.state j).postLock = none) :
    ∃ i < j, ∃ tid, e.action i = .testsPanic tid := by
  rcases e.running_testing j hj hrunning with ⟨tid, htest⟩ | hpanic
  · have howner := ((e.inv j hj).owner tid).mp (Module.holdsPost_of_testing htest)
    rw [hfree] at howner
    cases howner
  · exact hpanic

/-- PASSED was stored by a run whose self-tests passed. -/
theorem passed_stored (j : Nat) (hj : j ≤ e.length) (hpassed : (e.state j).postState = .passed) :
    ∃ i < j, ∃ tid, e.action i = .step tid ∧
      (e.state i).pc tid = .run (.storeResult (.ok ())) := by
  refine e.induction (P := fun j => (e.state j).postState = .passed → ∃ i < j, ∃ tid,
    e.action i = .step tid ∧ (e.state i).pc tid = .run (.storeResult (.ok ()))) ?_ ?_ j hj hpassed
  · intro h
    rw [e.start] at h
    cases h
  · intro k hk ih hnext
    rcases Module.postState_next (e.steps k hk) with hsame | ⟨tid, ha, hstore⟩
    · obtain ⟨i, hi, hrest⟩ := ih (hsame ▸ hnext)
      exact ⟨i, Nat.lt_succ_of_lt hi, hrest⟩
    · rcases hstore with ⟨-, hstate⟩ | ⟨result, hpc, hstate⟩ | ⟨fromNonce, -, hstate⟩
      · rw [hstate] at hnext
        cases hnext
      · rw [hstate] at hnext
        cases result with
        | ok _ => exact ⟨k, Nat.lt_succ_self k, tid, ha, hpc⟩
        | error _ => cases hnext
      · rw [hstate] at hnext
        cases hnext

/-! ## Calls of `require_post` -/

/-- A thread that runs no self-tests calls `require_post` in step `i`, and at `j` the call is about
to return `r`. -/
structure GateCall (tid i j : Nat) (r : Except SelfTestError Unit) : Prop where
  lt : i < j
  le : j ≤ e.length
  idle : (e.state i).pc tid = .idle
  called : e.action i = .callGate tid
  inside : ∀ k, i < k → k ≤ j → ∃ pc, (e.state k).pc tid = .gate false pc
  returns : (e.state j).pc tid = .gate false (.returned r)

theorem admitState_false_eq_ok {state : PostState} (h : admitState state false = .ok ()) :
    state = .passed := by
  cases state with
  | passed => rfl
  | _ => cases h

variable {e} {tid i j : Nat} {r : Except SelfTestError Unit}

theorem GateCall.first (h : e.GateCall tid i j r) :
    (e.state (i + 1)).pc tid = .gate false .testInPost := by
  have hstep := e.steps i (Nat.lt_of_lt_of_le h.lt h.le)
  rw [h.called, Module.next, if_pos h.idle] at hstep
  rw [← Option.some.inj hstep]
  exact Function.update_self ..

/-- An invariant of the call: it holds after the first step, and every later operation of the
thread, and every step of the others, keeps it. -/
theorem GateCall.induction (h : e.GateCall tid i j r) {P : Nat → GatePc → Prop}
    (hfirst : P (i + 1) .testInPost)
    (hother : ∀ k pc, i < k → k < j → (e.state k).pc tid = .gate false pc → P k pc →
      (e.state (k + 1)).pc tid = .gate false pc → P (k + 1) pc)
    (hown : ∀ k pc pc', i < k → k < j → (e.state k).pc tid = .gate false pc → P k pc →
      (e.state k).stepGate tid false pc = some (e.state (k + 1)) →
      (e.state (k + 1)).pc tid = .gate false pc' → P (k + 1) pc') : P j (.returned r) := by
  have hall : ∀ k, i + 1 ≤ k → k ≤ e.length → k ≤ j →
      ∀ pc, (e.state k).pc tid = .gate false pc → P k pc := by
    refine e.induction_from ?_ ?_
    · intro _ pc hpc
      rw [h.first] at hpc
      cases hpc
      exact hfirst
    · intro k hik hk ih hkj pc' hpc'
      obtain ⟨pc, hpc⟩ := h.inside k hik (Nat.le_of_lt hkj)
      have hP := ih (Nat.le_of_lt hkj) pc hpc
      rcases (e.inv k (Nat.le_of_lt hk)).gate_cases (e.steps k hk) hpc with hsame | hnext
      · obtain rfl : pc = pc' := by
          rw [hsame] at hpc'
          cases hpc'
          rfl
        exact hother k pc hik hkj hpc hP hsame
      · exact hown k pc pc' hik hkj hpc hP hnext hpc'
  exact hall j h.lt h.le (Nat.le_refl j) (.returned r) h.returns

/-- What a call has seen when it is about to return Ok. -/
theorem GateCall.passed (h : e.GateCall tid i j (.ok ())) :
    ∃ k, i < k ∧ k ≤ j ∧ (e.state k).postState = .passed := by
  have hseen := h.induction (P := fun k pc => pc ≠ .loadInPost ∧
    (pc = .unlock (.ok ()) ∨ pc = .returned (.ok ()) →
      ∃ m, i < m ∧ m ≤ k ∧ (e.state m).postState = .passed)) ?_ ?_ ?_
  · exact hseen.2 (Or.inr rfl)
  · refine ⟨by simp, ?_⟩
    intro hend
    rcases hend with hend | hend
    · cases hend
    · cases hend
  · intro k pc _ _ _ hP _
    refine ⟨hP.1, fun hend => ?_⟩
    obtain ⟨m, him, hmk, hm⟩ := hP.2 hend
    exact ⟨m, him, Nat.le_succ_of_le hmk, hm⟩
  · intro k pc pc' hik hkj hpc hP hnext hpc'
    have hinv := e.inv k (Nat.le_of_lt (Nat.lt_of_lt_of_le hkj h.le))
    have hflag : (e.state k).inPost tid = false := by
      rw [hinv.flag tid, hpc]
      rfl
    rcases Module.stepGate_cases hnext hflag hP.1 hpc' with ⟨-, rfl⟩ | ⟨-, -, rfl⟩ | ⟨-, -, rfl⟩ |
      ⟨-, rfl⟩ | ⟨-, rfl⟩ | ⟨result, rfl, rfl⟩ | ⟨-, rfl⟩
    · simp
    · simp
    · simp
    · simp
    · refine ⟨by simp, ?_⟩
      intro hend
      have hok : admitState (e.state k).postState false = .ok () := by simpa using hend
      exact ⟨k, hik, Nat.le_succ k, admitState_false_eq_ok hok⟩
    · refine ⟨by simp, ?_⟩
      intro hend
      have hok : result = .ok () := by simpa using hend
      subst hok
      obtain ⟨m, him, hmk, hm⟩ := hP.2 (Or.inl rfl)
      exact ⟨m, him, Nat.le_succ_of_le hmk, hm⟩
    · refine ⟨by simp, ?_⟩
      intro hend
      have hok : admitState (e.state k).postState false = .ok () := by simpa using hend
      exact ⟨k, hik, Nat.le_succ k, admitState_false_eq_ok hok⟩

/-- The self-test gate. FAILED is sticky: the state stays FAILED, and every run that takes the lock
afterwards only loads, unlocks and returns an error, and is never blocked. RUNNING is stored with
the lock free only after a panicked run. The gate admits a thread that runs no self-tests only if
PASSED was stored at some moment of the call, so never if the call began after FAILED was stored,
and never before a run has passed. The stuck-generator error is returned only when FAILED has been
stored. -/
theorem post_gate (e : ModuleExecution) :
    (∀ i j, i ≤ j → j ≤ e.length → (e.state i).postState = .failed →
      (e.state j).postState = .failed) ∧
    (∀ tid i j, i < j → j ≤ e.length → (e.state i).postState = .failed → e.TakesLock tid i →
      e.InRun tid i j → RunFails ((e.state j).pc tid) ∧
        ∃ t, (e.state j).next (.step tid) = some t) ∧
    (∀ j ≤ e.length, (e.state j).postState = .running → (e.state j).postLock = none →
      ∃ i < j, ∃ tid, e.action i = .testsPanic tid) ∧
    (∀ tid i j, e.GateCall tid i j (.ok ()) →
      (∃ k, i < k ∧ k ≤ j ∧ (e.state k).postState = .passed) ∧
      (e.state i).postState ≠ .failed ∧
      ∃ k < j, ∃ u, e.action k = .step u ∧ (e.state k).pc u = .run (.storeResult (.ok ()))) ∧
    ∀ tid, ∀ j ≤ e.length, (e.state j).pc tid = .nonce (.returned (.error stuckMessage)) →
      (e.state j).postState = .failed := by
  refine ⟨?_, ?_, e.running_unlocked, ?_, ?_⟩
  · intro i j hij hj hi
    exact e.failed_stays hij hj hi
  · intro tid i j hij hj hfailed hlock hrun
    have hfails := e.run_after_failed hij hj hfailed hlock hrun
    exact ⟨hfails, hfails.enabled⟩
  · intro tid i j hcall
    obtain ⟨k, hik, hkj, hk⟩ := hcall.passed
    have hkl := Nat.le_trans hkj hcall.le
    refine ⟨⟨k, hik, hkj, hk⟩, ?_, ?_⟩
    · intro hfailed
      rw [e.failed_stays (Nat.le_of_lt hik) hkl hfailed] at hk
      cases hk
    · obtain ⟨m, hmk, hstore⟩ := e.passed_stored k hkl hk
      exact ⟨m, Nat.lt_of_lt_of_le hmk hkj, hstore⟩
  · intro tid j hj hpc
    have hknows := (e.inv j hj).knows tid
    rw [hpc] at hknows
    exact hknows

/-! ## Admission after a success -/

/-- A run stores PASSED in step `k`. -/
def Succeeds (e : ModuleExecution) (k : Nat) : Prop :=
  k < e.length ∧ ∃ tid, e.action k = .step tid ∧
    (e.state k).pc tid = .run (.storeResult (.ok ()))

/-- The self-tests neither fail nor panic, and nobody enters the error state. -/
def Healthy (s : Module) : ModuleAction → Prop
  | .testsReturn _ result => result = .ok ()
  | .testsPanic _ => False
  | .step tid => ∀ fromNonce, s.pc tid ≠ .error .store fromNonce
  | _ => True

instance (s : Module) (a : ModuleAction) : Decidable (Healthy s a) :=
  match a with
  | .testsReturn _ result => inferInstanceAs (Decidable (result = .ok ()))
  | .testsPanic _ => inferInstanceAs (Decidable False)
  | .step tid => inferInstanceAs (Decidable (∀ fromNonce, s.pc tid ≠ .error .store fromNonce))
  | .callRun _ | .callError _ | .callGate _ | .callNonce .. => inferInstanceAs (Decidable True)

/-- No re-run stores RUNNING while a thread is between the two loads of `require_post`. -/
def Undisturbed (s : Module) : ModuleAction → Prop
  | .step tid => s.pc tid = .run .storeRunning → ∀ u, s.pc u ≠ .gate false .secondLoad
  | _ => True

/-- After a first success, and with no failure since, the gate admits every call: a call waits only
for the lock, while another thread has it, and returns nothing but Ok. -/
def Admits (e : ModuleExecution) : Prop :=
  ∀ first, e.Succeeds first →
    (∀ k, first ≤ k → k < e.length → Healthy (e.state k) (e.action k)) →
    (∀ tid i j r, first < i → e.GateCall tid i j r → r = .ok ()) ∧
    ∀ tid j pc, first < j → j ≤ e.length → (e.state j).pc tid = .gate false pc →
      (∃ t, (e.state j).next (.step tid) = some t) ∨
        pc = .lock ∧ ∃ u ≠ tid, (e.state j).postLock = some u

/-- After the success the state is PASSED, or a run that will pass is between its stores. -/
def Passing (s : Module) : Prop :=
  s.postState = .passed ∨ s.postState = .running ∧ ∃ tid, Module.testing (s.pc tid) = true ∧
    ∀ result, s.pc tid = .run (.storeResult result) → result = .ok ()

theorem Passing.next {s t : Module} (hp : Passing s) (hs : s.Inv) {a : ModuleAction}
    (h : s.next a = some t) (hhealthy : Healthy s a) : Passing t := by
  rcases Module.postState_next h with hsame | ⟨u, rfl, hstore⟩
  · rcases hp with hpassed | ⟨hrunning, tid, htest, hresult⟩
    · exact Or.inl (hsame.trans hpassed)
    · refine Or.inr ⟨hsame.trans hrunning, tid, ?_, ?_⟩
      · apply hs.testing_next h htest
        · intro ha
          rw [ha] at hhealthy
          exact hhealthy
        · -- It would have stored PASSED.
          intro result hpc ha
          rw [ha, Module.next, hpc, hresult result hpc] at h
          rw [← Option.some.inj h, hrunning] at hsame
          cases hsame
      · intro result hpc
        rcases hs.storeResult_next h htest hpc with hpc | rfl
        · exact hresult result hpc
        · exact hhealthy
  · rcases hstore with ⟨hpc, hstate⟩ | ⟨result, hpc, hstate⟩ | ⟨fromNonce, hpc, -⟩
    · rw [Module.next, hpc] at h
      have hplace : t.pc u = .run .setInPost := by
        rw [← Option.some.inj h]
        exact Module.pc_setPc s u _
      refine Or.inr ⟨hstate, u, ?_, ?_⟩
      · rw [hplace]
        rfl
      · intro result hpc
        rw [hplace] at hpc
        cases hpc
    · have hknows := hs.knows u
      rw [hpc] at hknows
      rcases hp with hpassed | ⟨-, tid, htest, hresult⟩
      · rw [show s.postState = .running from hknows] at hpassed
        cases hpassed
      · obtain rfl : u = tid := hs.owner_unique (by rw [hpc]; rfl)
          (Module.holdsPost_of_testing htest)
        rw [hresult result hpc] at hstate
        exact Or.inl hstate
    · exact absurd hpc (hhealthy fromNonce)

/-- A call of `require_post` waits only for the lock, while another thread has it. -/
theorem gate_enabled {s : Module} (hs : s.Inv) {pc : GatePc} (hpc : s.pc tid = .gate false pc) :
    (∃ t, s.next (.step tid) = some t) ∨ pc = .lock ∧ ∃ u ≠ tid, s.postLock = some u := by
  cases hlock : s.postLock with
  | none =>
      left
      rw [Module.next, hpc]
      cases pc with
      | lock => exact ⟨_, if_pos hlock⟩
      | _ => exact ⟨_, rfl⟩
  | some u =>
      cases pc with
      | lock =>
          refine Or.inr ⟨rfl, u, ?_, rfl⟩
          rintro rfl
          have hholds := (hs.owner u).mpr hlock
          rw [hpc] at hholds
          cases hholds
      | _ =>
          left
          rw [Module.next, hpc]
          exact ⟨_, rfl⟩

/-- The state after a success. -/
theorem passing_of_succeeds {first : Nat} (hfirst : e.Succeeds first)
    (hhealthy : ∀ k, first ≤ k → k < e.length → Healthy (e.state k) (e.action k)) (k : Nat)
    (hk : first < k) (hkl : k ≤ e.length) : Passing (e.state k) := by
  refine e.induction_from (P := fun k => Passing (e.state k)) ?_ ?_ k hk hkl
  · obtain ⟨hlt, tid, ha, hpc⟩ := hfirst
    have hstep := e.steps first hlt
    rw [ha, Module.next, hpc] at hstep
    left
    rw [← Option.some.inj hstep]
  · intro k hk hlt hp
    exact hp.next (e.inv k (Nat.le_of_lt hlt)) (e.steps k hlt)
      (hhealthy k (Nat.le_of_succ_le hk) hlt)

theorem GateCall.admitted (h : e.GateCall tid i j r)
    (hpassing : ∀ k, i < k → k ≤ j → Passing (e.state k))
    (hhealthy : ∀ k, i < k → k < j → Healthy (e.state k) (e.action k))
    (hundisturbed : ∀ k, i < k → k < j → Undisturbed (e.state k) (e.action k)) : r = .ok () := by
  have hseen := h.induction (P := fun k pc => pc ≠ .loadInPost ∧
    (pc = .secondLoad → (e.state k).postState = .passed) ∧
    ∀ r, pc = .unlock r ∨ pc = .returned r → r = .ok ()) ?_ ?_ ?_
  · exact hseen.2.2 r (Or.inr rfl)
  · refine ⟨by simp, by simp, ?_⟩
    intro r hend
    rcases hend with hend | hend
    · cases hend
    · cases hend
  · intro k pc hik hkj hpc hP _
    refine ⟨hP.1, ?_, hP.2.2⟩
    rintro rfl
    have hpassed := hP.2.1 rfl
    have hstep := e.steps k (Nat.lt_of_lt_of_le hkj h.le)
    rcases Module.postState_next hstep with hsame | ⟨u, ha, hstore⟩
    · rw [hsame]
      exact hpassed
    · have hcond := hundisturbed k hik hkj
      have hhealth := hhealthy k hik hkj
      rw [ha] at hcond hhealth
      rcases hstore with ⟨hpcu, -⟩ | ⟨result, hpcu, -⟩ | ⟨fromNonce, hpcu, -⟩
      · exact absurd hpc (hcond hpcu tid)
      · have hknows := (e.inv k (Nat.le_of_lt (Nat.lt_of_lt_of_le hkj h.le))).knows u
        rw [hpcu] at hknows
        rw [show (e.state k).postState = .running from hknows] at hpassed
        cases hpassed
      · exact absurd hpcu (hhealth fromNonce)
  · intro k pc pc' hik hkj hpc hP hnext hpc'
    have hinv := e.inv k (Nat.le_of_lt (Nat.lt_of_lt_of_le hkj h.le))
    have hflag : (e.state k).inPost tid = false := by
      rw [hinv.flag tid, hpc]
      rfl
    have hpass := hpassing k hik (Nat.le_of_lt hkj)
    rcases Module.stepGate_cases hnext hflag hP.1 hpc' with ⟨-, rfl⟩ | ⟨-, -, rfl⟩ |
      ⟨rfl, hne, rfl⟩ | ⟨-, rfl⟩ | ⟨rfl, rfl⟩ | ⟨result, rfl, rfl⟩ | ⟨rfl, rfl⟩
    · simp
    · simp
    · refine ⟨by simp, ?_, by simp⟩
      intro _
      rcases hpass with hpassed | ⟨hrunning, -⟩
      · rw [← Option.some.inj hnext]
        exact hpassed
      · exact absurd hrunning hne
    · simp
    · -- The lock is taken, so no run is between its stores.
      have hpassed : (e.state k).postState = .passed := by
        rcases hpass with hpassed | ⟨-, u, htest, -⟩
        · exact hpassed
        · obtain rfl : u = tid := hinv.owner_unique (Module.holdsPost_of_testing htest)
            (by rw [hpc]; rfl)
          rw [hpc] at htest
          cases htest
      rw [hpassed]
      refine ⟨by simp, by simp, ?_⟩
      intro r hend
      simpa [admitState, eq_comm] using hend
    · refine ⟨by simp, by simp, ?_⟩
      intro r hend
      have heq : result = r := by simpa using hend
      exact heq ▸ hP.2.2 result (Or.inl rfl)
    · rw [hP.2.1 rfl]
      refine ⟨by simp, by simp, ?_⟩
      intro r hend
      simpa [admitState, eq_comm] using hend

/-- If no re-run stores RUNNING between the two loads of a call, the gate admits every call after a
success. -/
theorem admits_of_undisturbed (e : ModuleExecution)
    (hundisturbed : ∀ k < e.length, Undisturbed (e.state k) (e.action k)) : e.Admits := by
  intro first hfirst hhealthy
  refine ⟨?_, ?_⟩
  · intro tid i j r hi hcall
    apply hcall.admitted
    · intro k hik hkj
      exact passing_of_succeeds hfirst hhealthy k (Nat.lt_trans hi hik)
        (Nat.le_trans hkj hcall.le)
    · intro k hik hkj
      exact hhealthy k (Nat.le_of_lt (Nat.lt_trans hi hik)) (Nat.lt_of_lt_of_le hkj hcall.le)
    · intro k _ hkj
      exact hundisturbed k (Nat.lt_of_lt_of_le hkj hcall.le)
  · intro tid j pc _ hj hpc
    exact gate_enabled (e.inv j hj) hpc

/-- Thread 0 runs the self-tests, which pass. -/
def passingRun : List ModuleAction :=
  [.callRun 0, .step 0, .step 0, .step 0, .step 0, .testsReturn 0 (.ok ()), .step 0, .step 0,
    .step 0, .step 0]

/-- Then it runs them again, and thread 1 waits for the outcome in `require_post`. -/
def waitingCall : List ModuleAction :=
  [.callRun 0, .step 0, .step 0, .step 0, .callGate 1, .step 1, .step 1, .step 0,
    .testsReturn 0 (.ok ()), .step 0, .step 0, .step 0, .step 1, .step 1, .step 1]

/-- Thread 0 stores RUNNING again between the two loads of thread 1. -/
def refusedCall : List ModuleAction :=
  [.callGate 1, .step 1, .step 1, .callRun 0, .step 0, .step 0, .step 0, .step 1]

def waitingExecution : ModuleExecution :=
  Execution.ofSteps Module.next (passingRun ++ waitingCall) (Option.some_get (by decide)).symm

def refusedExecution : ModuleExecution :=
  Execution.ofSteps Module.next (passingRun ++ refusedCall) (Option.some_get (by decide)).symm

theorem waitingExecution_undisturbed (k : Nat) (hk : k < waitingExecution.length) :
    Undisturbed (waitingExecution.state k) (waitingExecution.action k) := by
  have hstores : ∀ k < waitingExecution.length, k = 3 ∨ k = 13 ∨
      (waitingExecution.state k).pc (Module.tidOf (waitingExecution.action k)) ≠
        .run .storeRunning := by
    decide
  rcases hstores k hk with rfl | rfl | hne
  · intro _ u
    match u with
    | 0 => decide
    | u + 1 => exact fun h => by cases h
  · intro _ u
    match u with
    | 0 => decide
    | u + 1 => exact fun h => by cases h
  · generalize waitingExecution.action k = a at hne
    cases a with
    | step tid => exact fun hpc => absurd hpc hne
    | _ => trivial

theorem admits_waitingCall :
    (∀ k < waitingExecution.length,
      Undisturbed (waitingExecution.state k) (waitingExecution.action k)) ∧
    waitingExecution.Succeeds 6 ∧ waitingExecution.GateCall 1 14 25 (.ok ()) ∧
    waitingExecution.Admits := by
  refine ⟨waitingExecution_undisturbed, ⟨by decide, 0, rfl, by decide⟩, ?_,
    admits_of_undisturbed _ waitingExecution_undisturbed⟩
  refine ⟨by decide, by decide, rfl, rfl, ?_, rfl⟩
  intro k hik hkj
  interval_cases k
  all_goals exact ⟨_, rfl⟩

theorem not_admits_refusedCall : ∃ e : ModuleExecution, ¬ e.Admits := by
  refine ⟨refusedExecution, ?_⟩
  intro hadmits
  have hcall : refusedExecution.GateCall 1 10 18 (.error .notOperational) := by
    refine ⟨by decide, by decide, rfl, rfl, ?_, rfl⟩
    intro k hik hkj
    interval_cases k
    all_goals exact ⟨_, rfl⟩
  have hhealthy : ∀ k < refusedExecution.length, 6 ≤ k →
      Healthy (refusedExecution.state k) (refusedExecution.action k) := by
    decide
  have hok := (hadmits 6 ⟨by decide, 0, rfl, by decide⟩ (fun k h hk => hhealthy k hk h)).1 1 10 18
    _ (by decide) hcall
  cases hok

end ModuleExecution

end Napqes.Rust
