import Napqes.Misc.ReplayWindow
import Napqes.Rust.OtReceiver
import Napqes.Rust.Proofs.OtFrame

/-!
# Replay safety of the OT receiver

Over every interleaving of `unwrap_pdu` calls the accepted sequence numbers of a device
increase strictly, a call that fails moves no window, and under an ideal MAC what is accepted
was sealed with the accepted header.
-/

namespace Napqes.Rust

open ReplayWindow

variable {H : Hmac} {verify : NapqesKey → TagCheck}

/-! ## `validate_recv` -/

/-- A number is accepted only beyond the last one seen, which it then becomes. -/
theorem lastSeen_of_validateRecv_ok {c c' : SequenceCounter} {aad : OtAad}
    (h : c.validateRecv aad.protocol aad.deviceId aad.seq = (.ok ⟨⟩, c')) :
    c.lastSeen aad.device < aad.seq ∧
      c'.lastSeen = Function.update c.lastSeen aad.device aad.seq := by
  unfold SequenceCounter.validateRecv at h
  simp only at h
  split at h
  case isTrue => simp [err] at h
  case isFalse hlt =>
    simp only [Prod.mk.injEq, true_and] at h
    subst h
    refine ⟨UInt64.not_le.mp hlt, ?_⟩
    funext d
    by_cases hd : d = aad.device
    · rw [hd, Function.update_self]
      simp [SequenceCounter.lastSeen, OtAad.device]
    · have hd' : d ≠ (aad.protocol, aad.deviceId) := hd
      rw [Function.update_of_ne hd]
      simp [SequenceCounter.lastSeen, hd']

/-- A refused number moves no window. -/
theorem lastSeen_of_validateRecv_error {c c' : SequenceCounter} {aad : OtAad}
    {e : Fault FrameError}
    (h : c.validateRecv aad.protocol aad.deviceId aad.seq = (.error e, c')) :
    c'.lastSeen = c.lastSeen := by
  unfold SequenceCounter.validateRecv at h
  simp only at h
  split at h
  case isTrue =>
    simp only [Prod.mk.injEq] at h
    rw [← h.2]
    funext d
    by_cases hd : d = (aad.protocol, aad.deviceId)
    · simp [SequenceCounter.lastSeen, hd]
    · simp [SequenceCounter.lastSeen, hd]
  case isFalse => simp at h

/-- A number is refused when it is not beyond the last one seen. -/
theorem validateRecv_eq_error {c c' : SequenceCounter} {aad : OtAad} {e : Fault FrameError}
    (h : c.validateRecv aad.protocol aad.deviceId aad.seq = (.error e, c')) :
    aad.seq ≤ c.lastSeen aad.device ∧ e = .err (.replayDetected aad.deviceId aad.protocol aad.seq
      (c.lastSeen aad.device)) := by
  unfold SequenceCounter.validateRecv at h
  simp only at h
  split at h
  case isTrue hle =>
    cases h
    exact ⟨hle, rfl⟩
  case isFalse => cases h

/-! ## The invariant -/

/-- The accepted numbers with their devices, in order. -/
def Receiver.log (s : Receiver) : List (DeviceKey × UInt64) :=
  s.accepted.map fun a => (a.aad.device, a.aad.seq)

/-- What holds in every reachable state. -/
structure ReceiverInv (H : Hmac) (verify : NapqesKey → TagCheck) (s : Receiver) : Prop where
  increasing : Increasing s.log
  covers : Covers s.counters.lastSeen s.log
  opened : ∀ (i : Nat) (c : UnwrapCall) (aad : OtAad) (pdu : List UInt8),
    s.calls[i]? = some c → c.status = .opened aad pdu →
      openPdu H (verify c.key) c.buf c.key = .ok (aad, pdu)
  authentic : ∀ a ∈ s.accepted, ∃ buf, openPdu H (verify a.key) buf a.key = .ok (a.aad, a.pdu)

theorem ReceiverInv.init (counters : SequenceCounter) :
    ReceiverInv H verify (Receiver.init counters) where
  increasing := List.Pairwise.nil
  covers _ h := by simp [Receiver.log, Receiver.init] at h
  opened i c aad pdu h := by simp [Receiver.init] at h
  authentic _ h := by simp [Receiver.init] at h

/-- A status change keeps the opened calls authentic, if the new status is. -/
theorem opened_setStatus {s : Receiver} {i : Nat} {c : UnwrapCall} {status : CallStatus}
    (hopened : ∀ (i : Nat) (c : UnwrapCall) (aad : OtAad) (pdu : List UInt8),
      s.calls[i]? = some c → c.status = .opened aad pdu →
        openPdu H (verify c.key) c.buf c.key = .ok (aad, pdu))
    (hnew : ∀ aad pdu, status = .opened aad pdu →
      openPdu H (verify c.key) c.buf c.key = .ok (aad, pdu)) :
    ∀ (j : Nat) (d : UnwrapCall) (aad : OtAad) (pdu : List UInt8),
      (s.setStatus i c status).calls[j]? = some d → d.status = .opened aad pdu →
        openPdu H (verify d.key) d.buf d.key = .ok (aad, pdu) := by
  intro j d aad pdu hget hstatus
  simp only [Receiver.setStatus, List.getElem?_set] at hget
  split at hget
  case isTrue =>
    split at hget
    case isTrue =>
      cases hget
      exact hnew aad pdu hstatus
    case isFalse => cases hget
  case isFalse => exact hopened j d aad pdu hget hstatus

/-- Every step keeps the invariant. -/
theorem ReceiverInv.step {i : Nat} {s t : Receiver} (h : ReceiverInv H verify s)
    (hstep : ReceiverStep H verify i s t) : ReceiverInv H verify t := by
  cases hstep with
  | call _ buf key =>
      refine { h with opened := ?_ }
      intro j c aad pdu hget hstatus
      simp only [List.getElem?_append] at hget
      split at hget
      case isTrue => exact h.opened j c aad pdu hget hstatus
      case isFalse =>
        rw [List.getElem?_singleton] at hget
        split at hget
        case isTrue =>
          cases hget
          cases hstatus
        case isFalse => cases hget
  | opened _ _ c aad pdu hget hstatus hopen =>
      exact { h with
        opened := opened_setStatus h.opened fun aad' pdu' heq => by cases heq; exact hopen }
  | openFailed _ _ c e hget hstatus hopen =>
      exact { h with opened := opened_setStatus h.opened fun aad' pdu' heq => by cases heq }
  | accepted _ _ c aad pdu counters hget hstatus hvalid =>
      obtain ⟨hlt, hlast⟩ := lastSeen_of_validateRecv_ok hvalid
      have hlog : ∀ s' : Receiver, s'.accepted = s.accepted ++ [{ aad, key := c.key, pdu }] →
          s'.log = s.log ++ [(aad.device, aad.seq)] := by
        intro s' hs'
        simp [Receiver.log, hs']
      exact
        { increasing := by
            rw [hlog _ rfl]
            exact h.increasing.append h.covers hlt
          covers := by
            rw [hlog _ rfl]
            show Covers counters.lastSeen _
            rw [hlast]
            exact h.covers.append hlt
          opened := opened_setStatus h.opened fun aad' pdu' heq => by cases heq
          authentic := by
            intro a ha
            rcases List.mem_append.mp ha with ha | ha
            · exact h.authentic a ha
            · rw [List.mem_singleton.mp ha]
              exact ⟨c.buf, h.opened i c aad pdu hget hstatus⟩ }
  | refused _ _ c aad pdu counters e hget hstatus hvalid =>
      refine { h with covers := ?_, opened := ?_ }
      · show Covers counters.lastSeen s.log
        rw [lastSeen_of_validateRecv_error hvalid]
        exact h.covers
      · exact opened_setStatus h.opened fun aad' pdu' heq => by cases heq

/-- The invariant holds after every run. -/
theorem ReceiverInv.run {s t : Receiver} (h : ReceiverInv H verify s)
    (hrun : ReceiverRun H verify s t) : ReceiverInv H verify t := by
  induction hrun with
  | refl => exact h
  | tail _ hstep ih =>
      obtain ⟨i, hstep⟩ := hstep
      exact ih.step hstep

/-! ## Calls that return -/

/-- A call that has returned stays as it is. -/
theorem returned_step {i j : Nat} {s t : Receiver} {c : UnwrapCall}
    {r : RustM FrameError (List UInt8)} (hget : s.calls[i]? = some c)
    (hstatus : c.status = .returned r) (hstep : ReceiverStep H verify j s t) :
    t.calls[i]? = some c := by
  -- A step of another call leaves call `i` alone; call `i` itself has no step left.
  have hset : ∀ {d : UnwrapCall} {status : CallStatus}, s.calls[j]? = some d →
      (∀ r, d.status ≠ .returned r) → (s.setStatus j d status).calls[i]? = some c := by
    intro d status hd hne
    have hij : j ≠ i := by
      rintro rfl
      rw [hget, Option.some.injEq] at hd
      exact hne r (by rw [← hd, hstatus])
    rw [Receiver.setStatus, List.getElem?_set_ne hij]
    exact hget
  cases hstep with
  | call _ buf key =>
      have hlt := (List.getElem?_eq_some_iff.mp hget).1
      show (s.calls ++ _)[i]? = _
      rw [List.getElem?_append_left hlt]
      exact hget
  | opened _ _ d aad pdu hd hds hopen => exact hset hd (by simp [hds])
  | openFailed _ _ d e hd hds hopen => exact hset hd (by simp [hds])
  | accepted _ _ d aad pdu counters hd hds hvalid => exact hset hd (by simp [hds])
  | refused _ _ d aad pdu counters e hd hds hvalid => exact hset hd (by simp [hds])

theorem returned_run {i : Nat} {s t : Receiver} {c : UnwrapCall}
    {r : RustM FrameError (List UInt8)} (hget : s.calls[i]? = some c)
    (hstatus : c.status = .returned r) (hrun : ReceiverRun H verify s t) :
    t.calls[i]? = some c := by
  induction hrun with
  | refl => exact hget
  | tail _ hstep ih =>
      obtain ⟨j, hstep⟩ := hstep
      exact returned_step ih hstatus hstep

/-- No step of a call that ends in an error moves a window. -/
theorem lastSeen_of_failed {i : Nat} {s s' t : Receiver} {c : UnwrapCall}
    {e : Fault FrameError} (hstep : ReceiverStep H verify i s s')
    (hrun : ReceiverRun H verify s' t) (hget : t.calls[i]? = some c)
    (hstatus : c.status = .returned (.error e)) :
    s'.counters.lastSeen = s.counters.lastSeen := by
  cases hstep with
  | call _ buf key => rfl
  | opened _ _ d aad pdu hd hds hopen => rfl
  | openFailed _ _ d e' hd hds hopen => rfl
  | accepted _ _ d aad pdu counters hd hds hvalid =>
      -- This call returned `Ok` and stays so.
      have hlt := (List.getElem?_eq_some_iff.mp hd).1
      have hdone := returned_run (i := i) (c := { d with status := .returned (.ok pdu) })
        (by simp [Receiver.setStatus, hlt]) rfl hrun
      rw [hget, Option.some.injEq] at hdone
      rw [hdone] at hstatus
      cases hstatus
  | refused _ _ d aad pdu counters e' hd hds hvalid => exact lastSeen_of_validateRecv_error hvalid

/-! ## The sequential function -/

/-- A whole `unwrap_pdu` call without interleaving is a run of the system. -/
theorem run_of_unwrapPdu (s : Receiver) (buf : List UInt8) (key : NapqesKey) :
    ∃ t, ReceiverRun H verify s t ∧
      t.counters = (unwrapPdu H (verify key) buf key s.counters).2 ∧
      t.calls = s.calls ++ [UnwrapCall.mk buf key
        (.returned (unwrapPdu H (verify key) buf key s.counters).1)] ∧
      (∀ e, (unwrapPdu H (verify key) buf key s.counters).1 = .error e →
        t.accepted = s.accepted) ∧
      (∀ pdu, (unwrapPdu H (verify key) buf key s.counters).1 = .ok pdu →
        ∃ aad, openPdu H (verify key) buf key = .ok (aad, pdu) ∧
          t.accepted = s.accepted ++ [Acceptance.mk aad key pdu]) := by
  have hcall : ∀ status, (s.calls ++ [UnwrapCall.mk buf key status])[s.calls.length]? =
      some (UnwrapCall.mk buf key status) := by simp
  have hset : ∀ status status', (s.calls ++ [UnwrapCall.mk buf key status]).set s.calls.length
      (UnwrapCall.mk buf key status') = s.calls ++ [UnwrapCall.mk buf key status'] := by
    intro status status'
    rw [List.set_append_right _ _ (Nat.le_refl _)]
    simp
  have hstart := @ReceiverStep.call H verify s buf key
  unfold unwrapPdu
  cases hopen : openPdu H (verify key) buf key with
  | error e =>
      have hfail := @ReceiverStep.openFailed H verify
        { s with calls := s.calls ++ [UnwrapCall.mk buf key .started] } s.calls.length
        (UnwrapCall.mk buf key .started) e (hcall .started) rfl hopen
      refine ⟨_, (Relation.ReflTransGen.single ⟨_, hstart⟩).tail ⟨_, hfail⟩, rfl, ?_,
        fun _ _ => rfl, by simp⟩
      exact hset _ _
  | ok opened =>
      obtain ⟨aad, pdu⟩ := opened
      have hopened := @ReceiverStep.opened H verify
        { s with calls := s.calls ++ [UnwrapCall.mk buf key .started] } s.calls.length
        (UnwrapCall.mk buf key .started) aad pdu (hcall .started) rfl hopen
      have hget := hcall (.opened aad pdu)
      simp only [Receiver.setStatus, hset] at hopened
      have hboth : ReceiverRun H verify s
          { s with calls := s.calls ++ [UnwrapCall.mk buf key (.opened aad pdu)] } :=
        (Relation.ReflTransGen.single ⟨_, hstart⟩).tail ⟨_, hopened⟩
      cases hvalid : s.counters.validateRecv aad.protocol aad.deviceId aad.seq with
      | mk result counters =>
          cases result with
          | ok _ =>
              have hacc := @ReceiverStep.accepted H verify
                { s with calls := s.calls ++ [UnwrapCall.mk buf key (.opened aad pdu)] }
                s.calls.length _ aad pdu counters hget rfl hvalid
              refine ⟨_, hboth.tail ⟨_, hacc⟩, by simp [hvalid], ?_, ?_, ?_⟩
              · simp [Receiver.setStatus, hset, hvalid]
              · simp [hvalid]
              · simp [hvalid]
          | error e =>
              have href := @ReceiverStep.refused H verify
                { s with calls := s.calls ++ [UnwrapCall.mk buf key (.opened aad pdu)] }
                s.calls.length _ aad pdu counters e hget rfl hvalid
              refine ⟨_, hboth.tail ⟨_, href⟩, by simp [hvalid], ?_, ?_, ?_⟩
              · simp [Receiver.setStatus, hset, hvalid]
              · simp [Receiver.setStatus]
              · simp [hvalid]

/-! ## Main result -/

/-- Replay safety over all interleavings: the accepted numbers of each device increase
strictly, so no header is accepted twice; no step of a call that returns an error moves the
last-seen number of any device; and under an ideal MAC every accepted PDU was sealed by
`wrap_pdu` under the same key with exactly the accepted header. -/
theorem unwrapPdu_replay_safe (H : Hmac) (verify : NapqesKey → TagCheck)
    (counters : SequenceCounter) (s : Receiver)
    (hreach : ReceiverRun H verify (Receiver.init counters) s) :
    (∀ device : DeviceKey, ((s.accepted.filter fun a => a.aad.device = device).map
      fun a => a.aad.seq).Pairwise (· < ·)) ∧
    (s.accepted.map Acceptance.aad).Nodup ∧
    (∀ i s' t c e, ReceiverStep H verify i s s' → ReceiverRun H verify s' t →
      t.calls[i]? = some c → c.status = .returned (.error e) →
      ∀ device, s'.counters.lastSeen device = s.counters.lastSeen device) ∧
    (∀ wraps : List (HonestWrap H), IdealBlockMac H wraps verify →
      ∀ a ∈ s.accepted, ∃ w ∈ wraps, w.key = a.key ∧ w.aad = a.aad ∧ w.pdu = a.pdu) := by
  have hinv : ReceiverInv H verify s :=
    (ReceiverInv.init counters).run hreach
  refine ⟨?_, ?_, ?_, ?_⟩
  · intro device
    have h := hinv.increasing.filter device
    simpa [Receiver.log, List.filter_map, Function.comp_def] using h
  · have h := hinv.increasing.nodup
    rw [Receiver.log] at h
    refine List.Nodup.of_map (fun aad : OtAad => (aad.device, aad.seq)) ?_
    simpa [Function.comp_def] using h
  · intro i s' t c e hstep hrun hget hstatus device
    rw [lastSeen_of_failed hstep hrun hget hstatus]
  · intro wraps hmac a ha
    obtain ⟨buf, hopen⟩ := hinv.authentic a ha
    obtain ⟨w, hw, hkey, haad, hpdu, -⟩ := sealed_of_openPdu hmac hopen
    exact ⟨w, hw, hkey, haad, hpdu⟩

/-- A genuine envelope that arrives twice is accepted once. -/
theorem unwrapPdu_replay_safe_of_copy :
    ∃ s : Receiver,
      ReceiverRun zeroHmac (logBlockVerify [zeroWrap]) (Receiver.init .new) s ∧
      IdealBlockMac zeroHmac [zeroWrap] (logBlockVerify [zeroWrap]) ∧
      s.calls.map UnwrapCall.buf = [zeroWrap.envelope, zeroWrap.envelope] ∧
      s.accepted = [{ aad := zeroWrap.aad, key := zeroWrap.key, pdu := [0x11, 0x03] }] ∧
      (s.accepted.map Acceptance.aad).Nodup ∧
      ∀ a ∈ s.accepted, ∃ w ∈ [zeroWrap], w.key = a.key ∧ w.aad = a.aad ∧ w.pdu = a.pdu := by
  have hideal := idealBlockMac_logBlockVerify [zeroWrap]
  have hopen := zeroWrap.openPdu_envelope
    (logBlockVerify_self (List.mem_singleton.mpr rfl : zeroWrap ∈ [zeroWrap])) []
  rw [List.append_nil] at hopen
  obtain ⟨s, hs, hscounters, hscalls, -, hsacc⟩ := @run_of_unwrapPdu zeroHmac
    (logBlockVerify [zeroWrap]) (Receiver.init .new) zeroWrap.envelope zeroWrap.key
  obtain ⟨t, ht, -, htcalls, htacc, -⟩ := @run_of_unwrapPdu zeroHmac
    (logBlockVerify [zeroWrap]) s zeroWrap.envelope zeroWrap.key
  -- The first copy finds no entry for the device, the second one its own number.
  have hfirst : unwrapPdu zeroHmac (logBlockVerify [zeroWrap] zeroWrap.key) zeroWrap.envelope
      zeroWrap.key (Receiver.init .new).counters = (.ok zeroWrap.pdu, s.counters) := by
    rw [hscounters, unwrapPdu, hopen]
    rfl
  have hsecond : (unwrapPdu zeroHmac (logBlockVerify [zeroWrap] zeroWrap.key) zeroWrap.envelope
      zeroWrap.key s.counters).1 = err (.replayDetected 17 .modbusTcp 1 1) := by
    rw [hscounters, unwrapPdu, unwrapPdu, hopen]
    rfl
  rw [hfirst] at hscalls
  obtain ⟨aad, hopen', hsacc⟩ := hsacc zeroWrap.pdu (by rw [hfirst])
  obtain ⟨rfl, -⟩ := Prod.mk.inj (Except.ok.inj (hopen.symm.trans hopen'))
  have hrun := hs.trans ht
  have hsafe := unwrapPdu_replay_safe zeroHmac _ _ t hrun
  refine ⟨t, hrun, hideal, ?_, ?_, hsafe.2.1, hsafe.2.2.2 _ hideal⟩
  · rw [htcalls, hscalls]
    rfl
  · rw [htacc _ hsecond, hsacc]
    rfl

end Napqes.Rust
