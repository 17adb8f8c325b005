import Napqes.Rust.Proofs.KemLossless

/-!
# Agreement of the key exchange

Whenever neither side is in an exchange, ingress and egress hold the same key and the ingress has
derived it: in every run in which the responder sends its ACKs to the initiator only and each of
them arrives. Either of the two is needed.
-/

namespace Napqes.Rust

namespace Exchange

variable {H : Hmac} {hkdf : Hkdf} {frodo : Frodo} {s t : Exchange}

/-- When no exchange is in progress and both sides hold a key, it is the same one, and the ingress
has derived it. -/
def Agrees (s : Exchange) : Prop :=
  s.Idle → ∀ key key', s.ingressKey = some key → s.egressKey = some key' →
    key = key' ∧ key' ∈ s.derived

theorem Agreeing.agrees (h : Agreeing H hkdf frodo s) : Agrees s := by
  intro hidle key key' hkey hkey'
  obtain ⟨hi, hr⟩ := hidle
  have hip : s.ingressPending = none := by rw [ingressPending, hi]
  have hep : s.egressPending = none := by rw [egressPending, hr]
  have hfinal := h.keys.final
  rw [hip, hep, hkey, hkey'] at hfinal
  obtain rfl : key = key' := Option.some.inj hfinal
  exact ⟨rfl, h.initiator.stored key hkey⟩

/-! ## Sequences of actions -/

/-- The state after a sequence of actions, if each can happen. -/
def steps (H : Hmac) (hkdf : Hkdf) (frodo : Frodo) (s : Exchange) :
    List ExchangeAction → Option Exchange
  | [] => some s
  | a :: as => (step H hkdf frodo s a).bind fun t => steps H hkdf frodo t as

theorem steps_eq (as : List ExchangeAction) :
    steps H hkdf frodo s as = runSteps (step H hkdf frodo) s as := by
  induction as generalizing s with
  | nil => rfl
  | cons a as ih => exact congrArg _ (funext fun t => ih)

theorem runs_of_steps {condition : Exchange → ExchangeAction → Prop} {as : List ExchangeAction}
    (hcond : ∀ a ∈ as, ∀ s, condition s a) (h : steps H hkdf frodo s as = some t) :
    Runs H hkdf frodo condition s t :=
  run_of_runSteps hcond ((steps_eq as).symm.trans h)

/-- A lossless run from the start is undisturbed. -/
theorem runs_undisturbed (hfrodo : frodo.Correct)
    (h : Runs H hkdf frodo (fun _ a => Lossless a) init s) :
    Runs H hkdf frodo Undisturbed init s := by
  refine Run.mono (I := fun s => Agreeing H hkdf frodo s ∧ Live s) ?_ ?_ h
    ⟨.init H hkdf frodo, .init⟩
  · intro s a t hstep hcond hs
    exact ⟨hs.1.step hfrodo hstep (hs.2.undisturbed hcond), hs.2.step hs.1 hstep hcond⟩
  · intro s a t _ hcond hs
    exact hs.2.undisturbed hcond

/-! ## Agreement -/

/-- In every state that an undisturbed run reaches, the two sides agree when no exchange is in
progress. -/
theorem agrees_of_undisturbed (hfrodo : frodo.Correct)
    (hrun : Runs H hkdf frodo Undisturbed init s) : Agrees s :=
  (Agreeing.run hfrodo hrun).agrees

/-- An exchange from connect to insert. -/
def firstExchange : List ExchangeAction :=
  [.connect, .accept (.initiator 0) 1, .sendPk, .recvPk 2, .recvCt, .sendAck, .recvAck,
    .insertEgress, .insertIngress]

theorem steps_firstExchange :
    ∃ s, steps smallHmac smallHkdf smallFrodo init firstExchange = some s ∧ s.Idle ∧ s.opened = 1 ∧
      (∀ n, s.conns (.initiator (n + 1)) = .fresh ∧ s.conns (.other n) = .fresh) ∧
      s.ingress = .insert .new wildcardDeviceId (smallKey [1, 2]) ∧
      s.egress = .insert .new wildcardDeviceId (smallKey [1, 2]) := by
  simp [firstExchange, steps, step, init, setConn, Conn.fresh, Conn.sendDown, Conn.sendUp,
    keygen_small, recvFramed, encapsulateV8_small, decapsulateV8_small, Waiting, Idle]

theorem ingressKey_of_insert {store : SessionKeyStore} {key : NapqesKey}
    (h : s.ingress = store.insert wildcardDeviceId key) : s.ingressKey = some key := by
  simp only [ingressKey, h, SessionKeyStore.insert, Function.update_self]

theorem egressKey_of_insert {store : SessionKeyStore} {key : NapqesKey}
    (h : s.egress = store.insert wildcardDeviceId key) : s.egressKey = some key := by
  simp only [egressKey, h, SessionKeyStore.insert, Function.update_self]

theorem lossless_firstExchange : ∀ a ∈ firstExchange, Lossless a := by
  simp [firstExchange, Lossless]

theorem agrees_firstExchange :
    smallFrodo.Correct ∧ ∃ s, Runs smallHmac smallHkdf smallFrodo Undisturbed init s ∧ s.Idle ∧
      s.ingressKey = some (smallKey [1, 2]) ∧ s.egressKey = some (smallKey [1, 2]) ∧ Agrees s := by
  obtain ⟨s, hs, hidle, -, -, hi, he⟩ := steps_firstExchange
  have hrun := runs_undisturbed smallFrodo_correct
    (runs_of_steps (fun a ha _ => lossless_firstExchange a ha) hs)
  exact ⟨smallFrodo_correct, s, hrun, hidle, ingressKey_of_insert hi, egressKey_of_insert he,
    agrees_of_undisturbed smallFrodo_correct hrun⟩

/-! ## What goes wrong otherwise -/

/-- Nothing is lost and no call fails. -/
def Reliable : ExchangeAction → Prop
  | .failResponder | .failInitiator | .cut .. => False
  | _ => True

/-- Nobody else connects. -/
def Unshared : ExchangeAction → Prop
  | .accept (.other _) _ | .sendOther .. => False
  | _ => True

/-- Someone else's exchange. -/
def foreignExchange : List ExchangeAction :=
  [.accept (.other 0) 3, .sendPk, .sendOther 0 [4], .recvCt, .sendAck, .insertEgress]

/-- The initiator's second exchange, in which the connection is cut after the ACK was sent. -/
def cutExchange : List ExchangeAction :=
  [.connect, .accept (.initiator 1) 3, .sendPk, .recvPk 4, .recvCt, .sendAck,
    .cut (.initiator 1) 0 0, .failInitiator, .insertEgress]

theorem steps_foreignExchange (hidle : s.Idle) (hconn : s.conns (.other 0) = .fresh) :
    ∃ t, steps smallHmac smallHkdf smallFrodo s foreignExchange = some t ∧ t.Idle ∧
      t.ingress = s.ingress ∧
      t.egress = s.egress.insert wildcardDeviceId (smallKey [3, 4]) := by
  obtain ⟨hi, hr⟩ := hidle
  simp [foreignExchange, steps, step, hi, hr, hconn, setConn, Conn.fresh, Conn.sendDown,
    Conn.sendUp, keygen_small, recvFramed, decapsulateV8_small, Waiting, Idle]

theorem steps_cutExchange (hidle : s.Idle) (hopened : s.opened = 1)
    (hconn : s.conns (.initiator 1) = .fresh) :
    ∃ t, steps smallHmac smallHkdf smallFrodo s cutExchange = some t ∧ t.Idle ∧
      t.ingress = s.ingress ∧
      t.egress = s.egress.insert wildcardDeviceId (smallKey [3, 4]) := by
  obtain ⟨hi, hr⟩ := hidle
  simp [cutExchange, steps, step, hi, hr, hopened, hconn, setConn, Conn.fresh, Conn.sendDown,
    Conn.sendUp, keygen_small, recvFramed, encapsulateV8_small, decapsulateV8_small, Waiting, Idle]

/-- A second exchange that the egress alone completes ends the agreement. -/
theorem not_agrees_of_second {condition : ExchangeAction → Prop} {second : List ExchangeAction}
    (hcond : ∀ a ∈ firstExchange ++ second, condition a)
    (hsecond : ∀ s : Exchange, s.Idle → s.opened = 1 →
      (∀ n, s.conns (.initiator (n + 1)) = .fresh ∧ s.conns (.other n) = .fresh) →
      ∃ t, steps smallHmac smallHkdf smallFrodo s second = some t ∧ t.Idle ∧ t.ingress = s.ingress ∧
        t.egress = s.egress.insert wildcardDeviceId (smallKey [3, 4])) :
    ∃ s, Runs smallHmac smallHkdf smallFrodo (fun _ a => condition a) init s ∧ ¬Agrees s := by
  obtain ⟨s, hs, hidle, hopened, hconns, hingress, -⟩ := steps_firstExchange
  obtain ⟨t, ht, hidle', hingress', hegress'⟩ := hsecond s hidle hopened hconns
  have hsteps : steps smallHmac smallHkdf smallFrodo init (firstExchange ++ second) = some t := by
    rw [steps_eq] at hs ht ⊢
    rw [runSteps_append, hs]
    exact ht
  refine ⟨t, runs_of_steps (fun a ha _ => hcond a ha) hsteps, ?_⟩
  intro hagrees
  have hkey := ingressKey_of_insert (hingress'.trans hingress)
  exact smallKey_ne (hagrees hidle' _ _ hkey (egressKey_of_insert hegress')).1

/-- A third party gives the egress a key of its own, though nothing is lost; and a lost ACK leaves
the ingress with its old key, though nobody else connects. -/
theorem not_agrees_foreign_or_cut :
    (∃ s, Runs smallHmac smallHkdf smallFrodo (fun _ a => Reliable a) init s ∧ ¬Agrees s) ∧
      ∃ s, Runs smallHmac smallHkdf smallFrodo (fun _ a => Unshared a) init s ∧ ¬Agrees s := by
  refine ⟨?_, ?_⟩
  · apply @not_agrees_of_second Reliable foreignExchange
    · simp [firstExchange, foreignExchange, Reliable]
    · intro s hidle _ hconns
      exact steps_foreignExchange hidle (hconns 0).2
  · apply @not_agrees_of_second Unshared cutExchange
    · simp [firstExchange, cutExchange, Unshared]
    · intro s hidle hopened hconns
      exact steps_cutExchange hidle hopened (hconns 0).1

end Exchange

end Napqes.Rust
