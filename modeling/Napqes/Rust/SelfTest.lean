import Napqes.Misc.Execution
import Napqes.Rust.Derive

/-!
# The power-on self-test gate (`rust/src/self_test.rs:69-164, 675-707`, `rust/src/lib.rs:102-134`)

Any number of threads call `run_power_on_self_tests`, `enter_error_state`, `require_post` and
`generate_nonce_with_crng_check`. Each atomic load and store, each lock operation and each access
to the thread-local flag is a step of its own; the self-tests are one step that passes, fails or
panics, and may call `require_post` on their own thread before. They use fixed nonces, so they draw
none. This is the build without `cfg(test)`, in which `ensure_post_for_unit_tests` does nothing. A
panic poisons `POST_LOCK`, which `lock_post` ignores; nothing panics under `PREV_NONCE`.
-/

namespace Napqes.Rust

/-- The values of `POST_STATE` (`self_test.rs:69-72`). -/
inductive PostState where
  | notRun
  | running
  | passed
  | failed
  deriving DecidableEq, Repr

/-- `SelfTestError`: the gate's error, or that of a self-test. -/
inductive SelfTestError where
  | notOperational
  | testFailed
  deriving DecidableEq, Repr

/-- `admit` (`self_test.rs:104-110`). -/
def admitState (state : PostState) (inPost : Bool) : Except SelfTestError Unit :=
  match state, inPost with
  | .passed, _ => .ok ()
  | .running, true => .ok ()
  | _, _ => .error .notOperational

/-- The stuck-generator error of `generate_nonce_with_crng_check` (`lib.rs:129`). -/
def stuckMessage : String :=
  "CRNG stuck-generator check failed: consecutive draws matched (SP 800-140B §4.9.2); " ++
    "module entered the error state"

/-- How a call of `run_power_on_self_tests` ends: it returns, or a panic unwinds it. -/
abbrev RunResult := Option (Except SelfTestError Unit)

/-- In `run_power_on_self_tests`: before the operation named. -/
inductive RunPc where
  | lock
  | load
  | storeRunning
  | setInPost
  | tests
  | storeResult (result : Except SelfTestError Unit)
  | clearInPost (result : RunResult)
  | unlock (result : RunResult)
  | returned (result : RunResult)
  deriving DecidableEq

/-- In `enter_error_state`. -/
inductive ErrorPc where
  | lock
  | store
  | unlock
  deriving DecidableEq

/-- In `require_post`: before the test of `IN_POST`, the load after it, the first load, `lock_post`,
the load under the lock, and the second load. -/
inductive GatePc where
  | testInPost
  | loadInPost
  | firstLoad
  | lock
  | lockedLoad
  | unlock (result : Except SelfTestError Unit)
  | secondLoad
  | returned (result : Except SelfTestError Unit)
  deriving DecidableEq

/-- In `generate_nonce_with_crng_check`. -/
inductive NoncePc where
  | lock (nonce : FixedBytes nonceSize)
  | compare (nonce : FixedBytes nonceSize)
  | store (nonce : FixedBytes nonceSize)
  | unlock (result : Except String (FixedBytes nonceSize))
  | returned (result : Except String (FixedBytes nonceSize))
  deriving DecidableEq

/-- Where a thread stands. `enter_error_state` may have been called by
`generate_nonce_with_crng_check`, and `require_post` by a self-test. -/
inductive Pc where
  | idle
  | run (pc : RunPc)
  | error (pc : ErrorPc) (fromNonce : Bool)
  | gate (nested : Bool) (pc : GatePc)
  | nonce (pc : NoncePc)
  deriving DecidableEq

/-- `POST_STATE`, the owners of the locks, `PREV_NONCE`, and the threads. -/
structure Module where
  postState : PostState
  postLock : Option Nat
  prevNonce : Option (FixedBytes nonceSize)
  prevLock : Option Nat
  pc : Nat → Pc
  inPost : Nat → Bool

/-- What can happen next. -/
inductive ModuleAction where
  /-- A thread calls `run_power_on_self_tests`. -/
  | callRun (tid : Nat)
  /-- A thread calls `enter_error_state`. -/
  | callError (tid : Nat)
  /-- A thread, or a self-test on it, calls `require_post`. -/
  | callGate (tid : Nat)
  /-- A thread calls `generate_nonce_with_crng_check`, which draws a nonce. -/
  | callNonce (tid : Nat) (nonce : FixedBytes nonceSize)
  /-- The self-tests on a thread return. -/
  | testsReturn (tid : Nat) (result : Except SelfTestError Unit)
  /-- A self-test panics. -/
  | testsPanic (tid : Nat)
  /-- The next operation of a thread. -/
  | step (tid : Nat)

instance : Inhabited ModuleAction := ⟨.step 0⟩

namespace Module

def init : Module where
  postState := .notRun
  postLock := none
  prevNonce := none
  prevLock := none
  pc _ := .idle
  inPost _ := false

def setPc (s : Module) (tid : Nat) (pc : Pc) : Module :=
  { s with pc := Function.update s.pc tid pc }

def setInPost (s : Module) (tid : Nat) (flag : Bool) : Module :=
  { s with inPost := Function.update s.inPost tid flag }

/-- The next operation of `run_power_on_self_tests` (`self_test.rs:675-707`). The self-tests
themselves are other actions. -/
def stepRun (s : Module) (tid : Nat) : RunPc → Option Module
  | .lock =>
      if s.postLock = none then some { s.setPc tid (.run .load) with postLock := some tid }
      else none
  | .load =>
      some (s.setPc tid (.run (if s.postState = .failed then .unlock (some (.error .notOperational))
        else .storeRunning)))
  | .storeRunning => some { s.setPc tid (.run .setInPost) with postState := .running }
  | .setInPost => some ((s.setInPost tid true).setPc tid (.run .tests))
  | .tests => none
  | .storeResult result =>
      let state := match result with
        | .ok _ => PostState.passed
        | .error _ => PostState.failed
      some { s.setPc tid (.run (.clearInPost (some result))) with postState := state }
  | .clearInPost result => some ((s.setInPost tid false).setPc tid (.run (.unlock result)))
  | .unlock result => some { s.setPc tid (.run (.returned result)) with postLock := none }
  | .returned _ => some (s.setPc tid .idle)

/-- The next operation of `enter_error_state` (`self_test.rs:117-120`). -/
def stepError (s : Module) (tid : Nat) (fromNonce : Bool) : ErrorPc → Option Module
  | .lock =>
      if s.postLock = none then
        some { s.setPc tid (.error .store fromNonce) with postLock := some tid }
      else none
  | .store => some { s.setPc tid (.error .unlock fromNonce) with postState := .failed }
  | .unlock =>
      let pc := if fromNonce then Pc.nonce (.unlock (.error stuckMessage)) else .idle
      some { s.setPc tid pc with postLock := none }

/-- The next operation of `require_post` (`self_test.rs:154-164`). -/
def stepGate (s : Module) (tid : Nat) (nested : Bool) : GatePc → Option Module
  | .testInPost =>
      some (s.setPc tid (.gate nested (if s.inPost tid then .loadInPost else .firstLoad)))
  | .loadInPost => some (s.setPc tid (.gate nested (.returned (admitState s.postState true))))
  | .firstLoad =>
      some (s.setPc tid (.gate nested (if s.postState = .running then .lock else .secondLoad)))
  | .lock =>
      if s.postLock = none then
        some { s.setPc tid (.gate nested .lockedLoad) with postLock := some tid }
      else none
  | .lockedLoad => some (s.setPc tid (.gate nested (.unlock (admitState s.postState false))))
  | .unlock result =>
      some { s.setPc tid (.gate nested (.returned result)) with postLock := none }
  | .secondLoad => some (s.setPc tid (.gate nested (.returned (admitState s.postState false))))
  | .returned _ => some (s.setPc tid (if nested then .run .tests else .idle))

/-- The next operation of `generate_nonce_with_crng_check` (`lib.rs:110-134`). -/
def stepNonce (s : Module) (tid : Nat) : NoncePc → Option Module
  | .lock nonce =>
      if s.prevLock = none then
        some { s.setPc tid (.nonce (.compare nonce)) with prevLock := some tid }
      else none
  | .compare nonce =>
      some (s.setPc tid (if s.prevNonce = some nonce then .error .lock true
        else .nonce (.store nonce)))
  | .store nonce => some { s.setPc tid (.nonce (.unlock (.ok nonce))) with prevNonce := some nonce }
  | .unlock result => some { s.setPc tid (.nonce (.returned result)) with prevLock := none }
  | .returned _ => some (s.setPc tid .idle)

/-- The next state, if the action can happen. -/
def next (s : Module) : ModuleAction → Option Module
  | .callRun tid => if s.pc tid = .idle then some (s.setPc tid (.run .lock)) else none
  | .callError tid => if s.pc tid = .idle then some (s.setPc tid (.error .lock false)) else none
  | .callGate tid =>
      if s.pc tid = .idle then some (s.setPc tid (.gate false .testInPost))
      else if s.pc tid = .run .tests then some (s.setPc tid (.gate true .testInPost))
      else none
  | .callNonce tid nonce =>
      if s.pc tid = .idle then some (s.setPc tid (.nonce (.lock nonce))) else none
  | .testsReturn tid result =>
      if s.pc tid = .run .tests then some (s.setPc tid (.run (.storeResult result))) else none
  | .testsPanic tid =>
      if s.pc tid = .run .tests then some (s.setPc tid (.run (.clearInPost none))) else none
  | .step tid =>
      match s.pc tid with
      | .idle => none
      | .run pc => s.stepRun tid pc
      | .error pc fromNonce => s.stepError tid fromNonce pc
      | .gate nested pc => s.stepGate tid nested pc
      | .nonce pc => s.stepNonce tid pc

end Module

/-- The executions of the module. -/
abbrev ModuleExecution :=
  Execution (fun s a t => Module.next s a = some t) Module.init

end Napqes.Rust
