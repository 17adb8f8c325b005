import Napqes.Rust.SelfTest

/-!
# The invariant of the self-test gate

`POST_STATE` is stored under `POST_LOCK` only, so what the owner of the lock has loaded or stored
stays true until it unlocks, and FAILED stays for good.
-/

namespace Napqes.Rust

/-! ## Where a thread stands -/

/-- The thread holds `POST_LOCK`. -/
def Pc.holdsPost : Pc → Bool
  | .run .lock | .run (.returned _) => false
  | .run _ => true
  | .error .lock _ => false
  | .error _ _ => true
  | .gate true _ => true
  | .gate false .lockedLoad | .gate false (.unlock _) => true
  | .gate false _ => false
  | .idle | .nonce _ => false

/-- `IN_POST` on the thread. -/
def Pc.flag : Pc → Bool
  | .run .tests | .run (.storeResult _) | .run (.clearInPost _) => true
  | .gate nested _ => nested
  | _ => false

/-- The state that a run leaves behind. -/
def resultState : RunResult → PostState
  | some (.ok _) => .passed
  | some (.error _) => .failed
  | none => .running

/-- What the thread knows about `POST_STATE`: as the owner of the lock, or because FAILED stays. -/
def Pc.Knows (state : PostState) : Pc → Prop
  | .run .storeRunning => state ≠ .failed
  | .run .setInPost | .run .tests | .run (.storeResult _) => state = .running
  | .run (.clearInPost result) | .run (.unlock result) => state = resultState result
  | .error .unlock _ => state = .failed
  | .gate true pc => state = .running ∧ (pc = .testInPost ∨ pc = .loadInPost ∨
      ∃ result, pc = .returned result)
  | .nonce (.unlock (.error _)) | .nonce (.returned (.error _)) => state = .failed
  | _ => True

/-- What a thread knows without the lock stays true. -/
theorem Pc.Knows.mono {pc : Pc} {state state' : PostState} (h : pc.Knows state)
    (hfree : pc.holdsPost = false) (hfailed : state = .failed → state' = .failed) :
    pc.Knows state' := by
  cases pc with
  | idle => trivial
  | run pc =>
      cases pc with
      | lock => trivial
      | returned result => trivial
      | _ => cases hfree
  | error pc fromNonce =>
      cases pc with
      | lock => trivial
      | _ => cases hfree
  | gate nested pc =>
      cases nested with
      | true => cases hfree
      | false => trivial
  | nonce pc =>
      cases pc with
      | unlock result =>
          cases result with
          | ok nonce => trivial
          | error e => exact hfailed h
      | returned result =>
          cases result with
          | ok nonce => trivial
          | error e => exact hfailed h
      | _ => trivial

namespace Module

variable {s t : Module} {tid : Nat}

/-- The invariant of the module. -/
structure Inv (s : Module) : Prop where
  owner : ∀ tid, (s.pc tid).holdsPost = true ↔ s.postLock = some tid
  flag : ∀ tid, s.inPost tid = (s.pc tid).flag
  knows : ∀ tid, (s.pc tid).Knows s.postState

theorem Inv.init : Inv init where
  owner _ := iff_of_false (fun h => by cases h) (fun h => by cases h)
  flag _ := rfl
  knows _ := trivial

/-- What one operation of a thread may change: its own place and flag, the lock, which it takes if
it is free and releases if it has it, and `POST_STATE` if it holds the lock. -/
structure Moves (s t : Module) (tid : Nat) (pc' : Pc) : Prop where
  place : t.pc = Function.update s.pc tid pc'
  others : ∀ u, u ≠ tid → t.inPost u = s.inPost u
  flag : t.inPost tid = pc'.flag
  lock : t.postLock = if pc'.holdsPost then some tid
    else if (s.pc tid).holdsPost then none else s.postLock
  free : pc'.holdsPost = true → (s.pc tid).holdsPost = true ∨ s.postLock = none
  state : t.postState = s.postState ∨
    (s.pc tid).holdsPost = true ∧ (s.postState = .failed → t.postState = .failed)
  knows : pc'.Knows t.postState

theorem Moves.pc_self {pc' : Pc} (h : Moves s t tid pc') : t.pc tid = pc' := by
  rw [h.place, Function.update_self]

theorem Moves.pc_other {pc' : Pc} (h : Moves s t tid pc') {u : Nat} (hu : u ≠ tid) :
    t.pc u = s.pc u := by
  rw [h.place, Function.update_of_ne hu]

theorem Moves.failed {pc' : Pc} (h : Moves s t tid pc') (hs : s.postState = .failed) :
    t.postState = .failed := by
  rcases h.state with heq | ⟨-, hfailed⟩
  · rw [heq, hs]
  · exact hfailed hs

/-- A step under `PREV_NONCE`. -/
theorem Moves.congr {pc' : Pc} {u : Module} (h : Moves s t tid pc') (hpc : u.pc = t.pc)
    (hinPost : u.inPost = t.inPost) (hlock : u.postLock = t.postLock)
    (hstate : u.postState = t.postState) : Moves s u tid pc' where
  place := hpc.trans h.place
  others v hv := (congrFun hinPost v).trans (h.others v hv)
  flag := (congrFun hinPost tid).trans h.flag
  lock := hlock.trans h.lock
  free := h.free
  state := hstate ▸ h.state
  knows := hstate ▸ h.knows

theorem Inv.moves (hs : Inv s) {pc' : Pc} (h : Moves s t tid pc') : Inv t := by
  refine ⟨?_, ?_, ?_⟩
  · intro u
    by_cases hu : u = tid
    · subst hu
      rw [h.pc_self, h.lock]
      by_cases hpc : pc'.holdsPost = true
      · rw [if_pos hpc]
        exact iff_of_true hpc rfl
      · rw [if_neg hpc]
        refine iff_of_false hpc ?_
        split
        case isTrue => exact fun hnone => by cases hnone
        case isFalse hnot => exact fun hsome => hnot ((hs.owner u).mpr hsome)
    · -- Another owner would have kept this thread from taking the lock.
      rw [h.pc_other hu, hs.owner u, h.lock]
      by_cases hpc : pc'.holdsPost = true
      · rw [if_pos hpc]
        refine iff_of_false ?_ ?_
        · intro hsome
          rcases h.free hpc with hholds | hnone
          · rw [(hs.owner tid).mp hholds] at hsome
            exact hu (Option.some.inj hsome).symm
          · rw [hnone] at hsome
            cases hsome
        · intro hsome
          exact hu (Option.some.inj hsome).symm
      · rw [if_neg hpc]
        split
        case isTrue hholds =>
          rw [(hs.owner tid).mp hholds]
          refine iff_of_false ?_ ?_
          · intro hsome
            exact hu (Option.some.inj hsome).symm
          · intro hsome
            cases hsome
        case isFalse => exact Iff.rfl
  · intro u
    by_cases hu : u = tid
    · subst hu
      rw [h.pc_self]
      exact h.flag
    · rw [h.pc_other hu, h.others u hu]
      exact hs.flag u
  · intro u
    by_cases hu : u = tid
    · subst hu
      rw [h.pc_self]
      exact h.knows
    · rw [h.pc_other hu]
      rcases h.state with heq | ⟨hholds, hfailed⟩
      · rw [heq]
        exact hs.knows u
      · refine (hs.knows u).mono ?_ hfailed
        apply Bool.eq_false_iff.mpr
        intro hu'
        have howner := (hs.owner u).mp hu'
        rw [(hs.owner tid).mp hholds] at howner
        exact hu (Option.some.inj howner).symm

/-! ## The operations -/

section
variable (hs : Inv s) {pc' : Pc}
include hs

theorem Inv.setPc (hflag : pc'.flag = (s.pc tid).flag)
    (hholds : pc'.holdsPost = (s.pc tid).holdsPost) (hknows : pc'.Knows s.postState) :
    Moves s (s.setPc tid pc') tid pc' where
  place := rfl
  others _ _ := rfl
  flag := (hs.flag tid).trans hflag.symm
  lock := by
    rw [hholds]
    by_cases hpc : (s.pc tid).holdsPost = true
    · rw [if_pos hpc]
      exact (hs.owner tid).mp hpc
    · rw [if_neg hpc, if_neg hpc]
      rfl
  free hpc := Or.inl (hholds ▸ hpc)
  state := Or.inl rfl
  knows := hknows

theorem Inv.lock (hflag : pc'.flag = (s.pc tid).flag) (hfree : s.postLock = none)
    (hpc : pc'.holdsPost = true) (hknows : pc'.Knows s.postState) :
    Moves s { s.setPc tid pc' with postLock := some tid } tid pc' where
  place := rfl
  others _ _ := rfl
  flag := (hs.flag tid).trans hflag.symm
  lock := (if_pos hpc).symm
  free _ := Or.inr hfree
  state := Or.inl rfl
  knows := hknows

theorem Inv.unlock (hflag : pc'.flag = (s.pc tid).flag) (hholds : (s.pc tid).holdsPost = true)
    (hpc : pc'.holdsPost = false) (hknows : pc'.Knows s.postState) :
    Moves s { s.setPc tid pc' with postLock := none } tid pc' where
  place := rfl
  others _ _ := rfl
  flag := (hs.flag tid).trans hflag.symm
  lock := by rw [hpc, if_neg (by simp), if_pos hholds]
  free h := by
    rw [hpc] at h
    cases h
  state := Or.inl rfl
  knows := hknows

theorem Inv.store {state : PostState} (hflag : pc'.flag = (s.pc tid).flag)
    (hholds : (s.pc tid).holdsPost = true) (hpc : pc'.holdsPost = true)
    (hfailed : s.postState = .failed → state = .failed) (hknows : pc'.Knows state) :
    Moves s { s.setPc tid pc' with postState := state } tid pc' where
  place := rfl
  others _ _ := rfl
  flag := (hs.flag tid).trans hflag.symm
  lock := by
    rw [if_pos hpc]
    exact (hs.owner tid).mp hholds
  free _ := Or.inl hholds
  state := Or.inr ⟨hholds, hfailed⟩
  knows := hknows

theorem Inv.setInPost (hholds : (s.pc tid).holdsPost = true) (hpc : pc'.holdsPost = true)
    (hknows : pc'.Knows s.postState) :
    Moves s ((s.setInPost tid pc'.flag).setPc tid pc') tid pc' where
  place := rfl
  others u hu := Function.update_of_ne hu ..
  flag := Function.update_self ..
  lock := by
    rw [if_pos hpc]
    exact (hs.owner tid).mp hholds
  free _ := Or.inl hholds
  state := Or.inl rfl
  knows := hknows

theorem Inv.stepRun {pc : RunPc} (hpc : s.pc tid = .run pc) (h : s.stepRun tid pc = some t) :
    ∃ pc', Moves s t tid pc' := by
  have hknows := hs.knows tid
  rw [hpc] at hknows
  cases pc with
  | lock =>
      rw [Module.stepRun] at h
      split at h
      case isTrue hfree =>
        cases h
        exact ⟨_, hs.lock (by rw [hpc]; rfl) hfree rfl trivial⟩
      case isFalse => cases h
  | load =>
      cases h
      refine ⟨_, hs.setPc ?_ ?_ ?_⟩
      · rw [hpc]
        split
        · rfl
        · rfl
      · rw [hpc]
        split
        · rfl
        · rfl
      · split
        case isTrue hfailed => exact hfailed
        case isFalse hne => exact hne
  | storeRunning =>
      cases h
      exact ⟨_, hs.store (by rw [hpc]; rfl) (by rw [hpc]; rfl) rfl
        (fun hfailed => absurd hfailed hknows) rfl⟩
  | setInPost =>
      cases h
      exact ⟨.run .tests, hs.setInPost (by rw [hpc]; rfl) rfl hknows⟩
  | tests => cases h
  | storeResult result =>
      cases h
      refine ⟨_, hs.store (by rw [hpc]; rfl) (by rw [hpc]; rfl) rfl ?_ ?_⟩
      · intro hfailed
        rw [show s.postState = .running from hknows] at hfailed
        cases hfailed
      · cases result with
        | ok _ => rfl
        | error _ => rfl
  | clearInPost result =>
      cases h
      exact ⟨.run (.unlock result), hs.setInPost (by rw [hpc]; rfl) rfl hknows⟩
  | unlock result =>
      cases h
      exact ⟨_, hs.unlock (by rw [hpc]; rfl) (by rw [hpc]; rfl) rfl trivial⟩
  | returned result =>
      cases h
      exact ⟨_, hs.setPc (by rw [hpc]; rfl) (by rw [hpc]; rfl) trivial⟩

theorem Inv.stepError {pc : ErrorPc} {fromNonce : Bool} (hpc : s.pc tid = .error pc fromNonce)
    (h : s.stepError tid fromNonce pc = some t) : ∃ pc', Moves s t tid pc' := by
  have hknows := hs.knows tid
  rw [hpc] at hknows
  cases pc with
  | lock =>
      rw [Module.stepError] at h
      split at h
      case isTrue hfree =>
        cases h
        exact ⟨_, hs.lock (by rw [hpc]; rfl) hfree rfl trivial⟩
      case isFalse => cases h
  | store =>
      cases h
      exact ⟨_, hs.store (by rw [hpc]; rfl) (by rw [hpc]; rfl) rfl (fun _ => rfl) rfl⟩
  | unlock =>
      cases h
      cases fromNonce with
      | true => exact ⟨_, hs.unlock (by rw [hpc]; rfl) (by rw [hpc]; rfl) rfl hknows⟩
      | false => exact ⟨_, hs.unlock (by rw [hpc]; rfl) (by rw [hpc]; rfl) rfl trivial⟩

/-- On the thread of the self-tests the flag is set, so the gate does not look further. -/
theorem Inv.stepGate_nested {pc : GatePc} (hpc : s.pc tid = .gate true pc)
    (h : s.stepGate tid true pc = some t) : ∃ pc', Moves s t tid pc' := by
  have hknows := hs.knows tid
  have hflag := hs.flag tid
  rw [hpc] at hknows hflag
  obtain ⟨hrunning, rfl | rfl | ⟨result, rfl⟩⟩ := hknows
  · rw [Module.stepGate, show s.inPost tid = true from hflag] at h
    cases h
    exact ⟨_, hs.setPc (by rw [hpc]; rfl) (by rw [hpc]; rfl) ⟨hrunning, Or.inr (Or.inl rfl)⟩⟩
  · cases h
    exact ⟨_, hs.setPc (by rw [hpc]; rfl) (by rw [hpc]; rfl)
      ⟨hrunning, Or.inr (Or.inr ⟨_, rfl⟩)⟩⟩
  · cases h
    exact ⟨_, hs.setPc (by rw [hpc]; rfl) (by rw [hpc]; rfl) hrunning⟩

theorem Inv.stepGate {pc : GatePc} {nested : Bool} (hpc : s.pc tid = .gate nested pc)
    (h : s.stepGate tid nested pc = some t) : ∃ pc', Moves s t tid pc' := by
  cases nested with
  | true => exact hs.stepGate_nested hpc h
  | false =>
      cases pc with
      | testInPost =>
          have hflag := hs.flag tid
          rw [hpc] at hflag
          rw [Module.stepGate, show s.inPost tid = false from hflag] at h
          cases h
          exact ⟨_, hs.setPc (by rw [hpc]; rfl) (by rw [hpc]; rfl) trivial⟩
      | loadInPost =>
          cases h
          exact ⟨_, hs.setPc (by rw [hpc]; rfl) (by rw [hpc]; rfl) trivial⟩
      | firstLoad =>
          cases h
          refine ⟨_, hs.setPc (by rw [hpc]; rfl) ?_ ?_⟩
          · rw [hpc]
            split
            · rfl
            · rfl
          · split
            · trivial
            · trivial
      | lock =>
          rw [Module.stepGate] at h
          split at h
          case isTrue hfree =>
            cases h
            exact ⟨_, hs.lock (by rw [hpc]; rfl) hfree rfl trivial⟩
          case isFalse => cases h
      | lockedLoad =>
          cases h
          exact ⟨_, hs.setPc (by rw [hpc]; rfl) (by rw [hpc]; rfl) trivial⟩
      | unlock result =>
          cases h
          exact ⟨_, hs.unlock (by rw [hpc]; rfl) (by rw [hpc]; rfl) rfl trivial⟩
      | secondLoad =>
          cases h
          exact ⟨_, hs.setPc (by rw [hpc]; rfl) (by rw [hpc]; rfl) trivial⟩
      | returned result =>
          cases h
          exact ⟨_, hs.setPc (by rw [hpc]; rfl) (by rw [hpc]; rfl) trivial⟩

theorem Inv.stepNonce {pc : NoncePc} (hpc : s.pc tid = .nonce pc)
    (h : s.stepNonce tid pc = some t) : ∃ pc', Moves s t tid pc' := by
  have hknows := hs.knows tid
  rw [hpc] at hknows
  cases pc with
  | lock nonce =>
      rw [Module.stepNonce] at h
      split at h
      case isTrue =>
        cases h
        have hmoves : Moves s (s.setPc tid (.nonce (.compare nonce))) tid _ :=
          hs.setPc (by rw [hpc]; rfl) (by rw [hpc]; rfl) trivial
        exact ⟨_, hmoves.congr rfl rfl rfl rfl⟩
      case isFalse => cases h
  | compare nonce =>
      cases h
      refine ⟨_, hs.setPc ?_ ?_ ?_⟩
      · rw [hpc]
        split
        · rfl
        · rfl
      · rw [hpc]
        split
        · rfl
        · rfl
      · split
        · trivial
        · trivial
  | store nonce =>
      cases h
      have hmoves : Moves s (s.setPc tid (.nonce (.unlock (.ok nonce)))) tid _ :=
        hs.setPc (by rw [hpc]; rfl) (by rw [hpc]; rfl) trivial
      exact ⟨_, hmoves.congr rfl rfl rfl rfl⟩
  | unlock result =>
      cases h
      have hmoves : Moves s (s.setPc tid (.nonce (.returned result))) tid
          (.nonce (.returned result)) := by
        refine hs.setPc (by rw [hpc]; rfl) (by rw [hpc]; rfl) ?_
        cases result with
        | ok nonce => trivial
        | error e => exact hknows
      exact ⟨_, hmoves.congr rfl rfl rfl rfl⟩
  | returned result =>
      cases h
      exact ⟨_, hs.setPc (by rw [hpc]; rfl) (by rw [hpc]; rfl) trivial⟩

end

/-- The thread whose action it is. -/
def tidOf : ModuleAction → Nat
  | .callRun tid | .callError tid | .callGate tid | .callNonce tid _ | .testsReturn tid _
  | .testsPanic tid | .step tid => tid

theorem Inv.next (hs : Inv s) {a : ModuleAction} (h : s.next a = some t) :
    ∃ pc', Moves s t (tidOf a) pc' := by
  cases a with
  | callRun tid =>
      rw [Module.next] at h
      split at h
      case isTrue hpc =>
        cases h
        exact ⟨_, hs.setPc (by rw [hpc]; rfl) (by rw [hpc]; rfl) trivial⟩
      case isFalse => cases h
  | callError tid =>
      rw [Module.next] at h
      split at h
      case isTrue hpc =>
        cases h
        exact ⟨_, hs.setPc (by rw [hpc]; rfl) (by rw [hpc]; rfl) trivial⟩
      case isFalse => cases h
  | callGate tid =>
      rw [Module.next] at h
      split at h
      case isTrue hpc =>
        cases h
        exact ⟨_, hs.setPc (by rw [hpc]; rfl) (by rw [hpc]; rfl) trivial⟩
      case isFalse =>
        split at h
        case isTrue hpc =>
          cases h
          have hknows := hs.knows tid
          rw [hpc] at hknows
          exact ⟨_, hs.setPc (by rw [hpc]; rfl) (by rw [hpc]; rfl)
            ⟨hknows, Or.inl rfl⟩⟩
        case isFalse => cases h
  | callNonce tid nonce =>
      rw [Module.next] at h
      split at h
      case isTrue hpc =>
        cases h
        exact ⟨_, hs.setPc (by rw [hpc]; rfl) (by rw [hpc]; rfl) trivial⟩
      case isFalse => cases h
  | testsReturn tid result =>
      rw [Module.next] at h
      split at h
      case isTrue hpc =>
        cases h
        have hknows := hs.knows tid
        rw [hpc] at hknows
        exact ⟨_, hs.setPc (by rw [hpc]; rfl) (by rw [hpc]; rfl) hknows⟩
      case isFalse => cases h
  | testsPanic tid =>
      rw [Module.next] at h
      split at h
      case isTrue hpc =>
        cases h
        have hknows := hs.knows tid
        rw [hpc] at hknows
        exact ⟨_, hs.setPc (by rw [hpc]; rfl) (by rw [hpc]; rfl) hknows⟩
      case isFalse => cases h
  | step tid =>
      rw [Module.next] at h
      split at h
      case h_1 => cases h
      case h_2 pc hpc => exact hs.stepRun hpc h
      case h_3 pc fromNonce hpc => exact hs.stepError hpc h
      case h_4 nested pc hpc => exact hs.stepGate hpc h
      case h_5 pc hpc => exact hs.stepNonce hpc h

theorem Inv.step (hs : Inv s) {a : ModuleAction} (h : s.next a = some t) : Inv t := by
  obtain ⟨pc', hmoves⟩ := hs.next h
  exact hs.moves hmoves

end Module

end Napqes.Rust
