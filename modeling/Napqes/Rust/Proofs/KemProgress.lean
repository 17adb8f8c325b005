import Napqes.Rust.Proofs.KemAgreement

/-!
# Progress of the key exchange

Whatever has happened, the two loops can get to a new common key once the connections they are on
are cut: the calls on these fail, and the next exchange takes place on a connection nobody has
touched. Without losses nothing has to fail: every exchange that has begun ends, however the steps
are ordered.
-/

namespace Napqes.Rust

/-- The connection the initiator is on. -/
def Initiator.conn : Initiator → Option ConnId
  | .awaitPk n | .awaitAck n _ => some (.initiator n)
  | .resting | .install _ => none

namespace Exchange

variable {H : Hmac} {hkdf : Hkdf} {frodo : Frodo} {s t : Exchange}

/-! ## Recovery -/

/-- The network loses nothing more and nobody else is served. A call fails only on a connection
that is cut: a peer that keeps silent fails no `recv_framed`, which has no timeout. -/
def Recovering (s : Exchange) : ExchangeAction → Prop
  | .accept (.other _) _ | .sendOther .. | .cut .. => False
  | .failResponder => ∀ c, s.responder.conn = some c → (s.conns c).isCut = true
  | .failInitiator => ∀ c, s.initiator.conn = some c → (s.conns c).isCut = true
  | _ => True

/-- The connections that the two loops are on, if any, are cut. -/
@[mk_iff]
structure CutOff (s : Exchange) : Prop where
  responder : ∀ c, s.responder.conn = some c → (s.conns c).isCut = true
  initiator : ∀ c, s.initiator.conn = some c → (s.conns c).isCut = true

/-- A step changes one connection at most. -/
theorem conns_step {a : ExchangeAction} (h : step H hkdf frodo s a = some t) :
    ∃ c, ∀ c' ≠ c, t.conns c' = s.conns c' := by
  have hset : ∀ {c : ConnId} {conn : Conn}, t.conns = (s.setConn c conn).conns →
      ∃ c, ∀ c' ≠ c, t.conns c' = s.conns c' := by
    intro c conn heq
    refine ⟨c, fun c' hne => ?_⟩
    rw [heq, conns_setConn, if_neg hne]
  have hsame : t.conns = s.conns → ∃ c, ∀ c' ≠ c, t.conns c' = s.conns c' :=
    fun heq => ⟨.other 0, fun c' _ => by rw [heq]⟩
  cases a with
  | connect =>
      obtain ⟨-, rfl⟩ := step_connect h
      exact hsame rfl
  | accept c seed =>
      obtain ⟨-, -, rfl⟩ := step_accept h
      exact hset rfl
  | sendPk =>
      obtain ⟨c, pk, sk, -, rfl⟩ := step_sendPk h
      exact hset rfl
  | recvPk coins =>
      obtain ⟨n, pk, rest, -, -, ⟨ct, key, -, rfl⟩ | rfl⟩ := step_recvPk h
      · exact hset rfl
      · exact hset rfl
  | sendOther n frame =>
      obtain rfl := step_sendOther h
      exact hset rfl
  | recvCt =>
      obtain ⟨c, sk, ct, rest, r, -, -, rfl, -⟩ := step_recvCt h
      exact hset rfl
  | sendAck =>
      obtain ⟨c, key, -, rfl⟩ := step_sendAck h
      exact hset rfl
  | recvAck =>
      obtain ⟨n, key, b, rest, -, -, rfl⟩ := step_recvAck h
      exact hset rfl
  | insertEgress =>
      obtain ⟨key, -, rfl⟩ := step_insertEgress h
      exact hsame rfl
  | insertIngress =>
      obtain ⟨key, -, rfl⟩ := step_insertIngress h
      exact hsame rfl
  | failResponder =>
      obtain ⟨-, rfl⟩ := step_failResponder h
      exact hsame rfl
  | failInitiator =>
      obtain ⟨-, rfl⟩ := step_failInitiator h
      exact hsame rfl
  | cut c down up =>
      obtain rfl := step_cut h
      exact hset rfl

/-- In every run, only finitely many connections have been touched. -/
theorem exists_fresh {condition : Exchange → ExchangeAction → Prop}
    (h : Runs H hkdf frodo condition init s) : ∃ N, ∀ n ≥ N, s.conns (.initiator n) = .fresh := by
  refine Run.invariant (I := fun s => ∃ N, ∀ n ≥ N, s.conns (.initiator n) = .fresh) ?_ h
    ⟨0, fun _ _ => rfl⟩
  rintro s a t hstep - ⟨N, hN⟩
  obtain ⟨c, hc⟩ := conns_step hstep
  cases c with
  | initiator m =>
      refine ⟨max N (m + 1), fun n hn => ?_⟩
      rw [hc _ (by simp; omega)]
      exact hN n (by omega)
  | other m =>
      refine ⟨N, fun n hn => ?_⟩
      rw [hc _ (by simp)]
      exact hN n hn

/-- The initiator's connections that are still to come are fresh or cut, and the loops are on
others. -/
structure Untouched (s : Exchange) : Prop where
  responder : ∀ n, s.responder.conn = some (.initiator n) → n < s.opened
  initiator : ∀ n, s.initiator.conn = some (.initiator n) → n < s.opened
  later : ∀ n, s.opened ≤ n →
    s.conns (.initiator n) = .fresh ∨ (s.conns (.initiator n)).isCut = true

theorem Untouched.init : Untouched init where
  responder _ hn := nomatch hn
  initiator _ hn := nomatch hn
  later _ _ := Or.inl rfl

/-- One connection changes, and it has been opened or it is cut. -/
theorem Untouched.of_moves (h : Untouched s) {c : ConnId} {conn : Conn} (hmoves : Moves s t c conn)
    (hopened : t.opened = s.opened) (hc : ∀ n, c = .initiator n → n < s.opened ∨ conn.isCut = true)
    (hr : ∀ n, t.responder.conn = some (.initiator n) → n < s.opened)
    (hi : ∀ n, t.initiator.conn = some (.initiator n) → n < s.opened) : Untouched t := by
  rw [← hopened] at hr hi
  refine ⟨hr, hi, ?_⟩
  intro n hn
  rw [hopened] at hn
  by_cases heq : c = .initiator n
  case pos =>
    subst heq
    rw [hmoves.self]
    exact Or.inr ((hc n rfl).resolve_left (Nat.not_lt.mpr hn))
  case neg =>
    rw [hmoves, if_neg (Ne.symm heq)]
    exact h.later n hn

/-- No connection changes. -/
theorem Untouched.of_conns_eq (h : Untouched s) (hconns : t.conns = s.conns)
    (hopened : t.opened = s.opened)
    (hr : ∀ n, t.responder.conn = some (.initiator n) → n < s.opened)
    (hi : ∀ n, t.initiator.conn = some (.initiator n) → n < s.opened) : Untouched t := by
  rw [← hopened] at hr hi
  refine ⟨hr, hi, ?_⟩
  rw [hconns, hopened]
  exact h.later

theorem Untouched.step (h : Untouched s) {a : ExchangeAction}
    (hstep : step H hkdf frodo s a = some t) : Untouched t := by
  cases a with
  | connect =>
      obtain ⟨-, rfl⟩ := step_connect hstep
      refine ⟨fun n hn => Nat.lt_succ_of_lt (h.responder n hn), ?_, ?_⟩
      · intro n hn
        cases hn
        exact Nat.lt_succ_self _
      · exact fun n hn => h.later n (Nat.le_of_succ_le hn)
  | accept c seed =>
      obtain ⟨-, hwait, rfl⟩ := step_accept hstep
      have hlt : ∀ n, c = .initiator n → n < s.opened := by
        rintro n rfl
        exact hwait.1
      exact h.of_moves (moves_setConn rfl) rfl (fun n hn => Or.inl (hlt n hn))
        (fun n hn => hlt n (Option.some.inj hn)) h.initiator
  | sendPk =>
      obtain ⟨c, pk, sk, hr, rfl⟩ := step_sendPk hstep
      have hlt : ∀ n, c = .initiator n → n < s.opened := by
        rintro n rfl
        exact h.responder n (by rw [hr, Responder.conn])
      exact h.of_moves (moves_setConn rfl) rfl (fun n hn => Or.inl (hlt n hn))
        (fun n hn => hlt n (Option.some.inj hn)) h.initiator
  | recvPk coins =>
      obtain ⟨n, pk, rest, hi, -, ⟨ct, key, -, rfl⟩ | rfl⟩ := step_recvPk hstep
      · have hlt : n < s.opened := h.initiator n (by rw [hi, Initiator.conn])
        refine h.of_moves (moves_setConn rfl) rfl ?_ h.responder ?_
        · rintro m heq
          cases heq
          exact Or.inl hlt
        · intro m hm
          cases hm
          exact hlt
      · refine h.of_moves (moves_setConn rfl) rfl ?_ h.responder (fun m hm => nomatch hm)
        rintro m heq
        cases heq
        exact Or.inl (h.initiator n (by rw [hi, Initiator.conn]))
  | sendOther n frame =>
      obtain rfl := step_sendOther hstep
      exact h.of_moves (moves_setConn rfl) rfl (fun m hm => nomatch hm) h.responder h.initiator
  | recvCt =>
      obtain ⟨c, sk, ct, rest, r, hr, -, rfl, hnext⟩ := step_recvCt hstep
      have hlt : ∀ n, c = .initiator n → n < s.opened := by
        rintro n rfl
        exact h.responder n (by rw [hr, Responder.conn])
      refine h.of_moves (moves_setConn rfl) rfl (fun n hn => Or.inl (hlt n hn)) ?_ h.initiator
      intro n hn
      rcases hnext with rfl | ⟨key, -, rfl⟩
      · cases hn
      · exact hlt n (Option.some.inj hn)
  | sendAck =>
      obtain ⟨c, key, hr, rfl⟩ := step_sendAck hstep
      refine h.of_moves (moves_setConn rfl) rfl ?_ (fun n hn => nomatch hn) h.initiator
      rintro n rfl
      exact Or.inl (h.responder n (by rw [hr, Responder.conn]))
  | recvAck =>
      obtain ⟨n, key, b, rest, hi, -, rfl⟩ := step_recvAck hstep
      refine h.of_moves (moves_setConn rfl) rfl ?_ h.responder ?_
      · rintro m heq
        cases heq
        exact Or.inl (h.initiator n (by rw [hi, Initiator.conn]))
      · intro m hm
        simp only at hm
        split at hm <;> cases hm
  | insertEgress =>
      obtain ⟨key, -, rfl⟩ := step_insertEgress hstep
      exact h.of_conns_eq rfl rfl (fun n hn => nomatch hn) h.initiator
  | insertIngress =>
      obtain ⟨key, -, rfl⟩ := step_insertIngress hstep
      exact h.of_conns_eq rfl rfl h.responder (fun n hn => nomatch hn)
  | failResponder =>
      obtain ⟨-, rfl⟩ := step_failResponder hstep
      exact h.of_conns_eq rfl rfl (fun n hn => nomatch hn) h.initiator
  | failInitiator =>
      obtain ⟨-, rfl⟩ := step_failInitiator hstep
      exact h.of_conns_eq rfl rfl h.responder (fun n hn => nomatch hn)
  | cut c down up =>
      obtain rfl := step_cut hstep
      exact h.of_moves (moves_setConn rfl) rfl (fun _ _ => Or.inr rfl) h.responder h.initiator

/-- A fresh connection comes after cut ones only. -/
theorem exists_next_fresh {condition : Exchange → ExchangeAction → Prop}
    (h : Runs H hkdf frodo condition init s) :
    ∃ k, s.conns (.initiator (s.opened + k)) = .fresh ∧
      ∀ j < k, (s.conns (.initiator (s.opened + j))).isCut = true := by
  have huntouched : Untouched s :=
    Run.invariant (fun _ _ _ hstep _ hs => hs.step hstep) h Untouched.init
  obtain ⟨N, hN⟩ := exists_fresh h
  have hex : ∃ k, s.conns (.initiator (s.opened + k)) = .fresh := ⟨N, hN _ (Nat.le_add_left ..)⟩
  classical
  refine ⟨Nat.find hex, Nat.find_spec hex, ?_⟩
  intro j hj
  exact (huntouched.later _ (Nat.le_add_right ..)).resolve_left (Nat.find_min hex hj)

/-- The responder gives up its connection, which is cut, or inserts what it has. -/
theorem runs_settle_responder (hcut : ∀ c, s.responder.conn = some c → (s.conns c).isCut = true) :
    ∃ t, Runs H hkdf frodo Recovering s t ∧ t.responder = .listening ∧
      t.initiator = s.initiator ∧ t.conns = s.conns ∧ t.opened = s.opened := by
  cases hr : s.responder with
  | listening => exact ⟨s, .refl s, hr, rfl, rfl, rfl⟩
  | install key =>
      exact ⟨{ s with egress := s.egress.insert wildcardDeviceId key, responder := .listening },
        (Run.refl s).next .insertEgress (by rw [step, hr]) trivial, rfl, rfl, rfl, rfl⟩
  | accepted | awaitCt | sendAck =>
      exact ⟨{ s with responder := .listening },
        (Run.refl s).next .failResponder (by rw [step, hr]) hcut, rfl, rfl, rfl, rfl⟩

/-- So does the initiator. -/
theorem runs_settle_initiator (hcut : ∀ c, s.initiator.conn = some c → (s.conns c).isCut = true) :
    ∃ t, Runs H hkdf frodo Recovering s t ∧ t.initiator = .resting ∧
      t.responder = s.responder ∧ t.conns = s.conns ∧ t.opened = s.opened := by
  cases hi : s.initiator with
  | resting => exact ⟨s, .refl s, hi, rfl, rfl, rfl⟩
  | install key =>
      exact ⟨{ s with ingress := s.ingress.insert wildcardDeviceId key, initiator := .resting },
        (Run.refl s).next .insertIngress (by rw [step, hi]) trivial, rfl, rfl, rfl, rfl⟩
  | awaitPk | awaitAck =>
      exact ⟨{ s with initiator := .resting },
        (Run.refl s).next .failInitiator (by rw [step, hi]) hcut, rfl, rfl, rfl, rfl⟩

/-- The initiator gives up the next `k` connections, which are cut. -/
theorem runs_advance (hidle : s.Idle) (k : Nat)
    (hcut : ∀ j < k, (s.conns (.initiator (s.opened + j))).isCut = true) :
    ∃ t, Runs H hkdf frodo Recovering s t ∧ t.Idle ∧ t.conns = s.conns ∧
      t.opened = s.opened + k := by
  induction k with
  | zero => exact ⟨s, .refl s, hidle, rfl, rfl⟩
  | succ k ih =>
      obtain ⟨t, hrun, ⟨hi, hr⟩, hconns, hopened⟩ :=
        ih fun j hj => hcut j (Nat.lt_succ_of_lt hj)
      have hconnect := hrun.next .connect (u := { t with
        initiator := .awaitPk t.opened, opened := t.opened + 1 }) (by rw [step, hi]) trivial
      have hfail := hconnect.next .failInitiator (u := { t with
        initiator := .resting, opened := t.opened + 1 }) rfl (by
          intro c hc
          cases hc
          rw [hconns, hopened]
          exact hcut k (Nat.lt_succ_self k))
      exact ⟨_, hfail, ⟨rfl, hr⟩, hconns, by simp only [hopened, Nat.add_assoc]⟩

/-- The KEM calls of an exchange succeed, and what they put on the wire fits a frame. -/
structure Succeeds (H : Hmac) (hkdf : Hkdf) (frodo : Frodo) (seed coins : Nat) (ct : List UInt8)
    (key : NapqesKey) : Prop where
  encapsulate : encapsulateV8 H hkdf frodo (keygen frodo seed).1 coins = .ok (ct, key)
  pk_le : (keygen frodo seed).1.length ≤ 64 * 1024
  ct_le : ct.length ≤ 64 * 1024
  ciphertext : frodo.ciphertextFromBytes ct = true
  secretKey : frodo.secretKeyFromBytes (keygen frodo seed).2 = true

/-- The responder then finds the key of the initiator. -/
theorem Succeeds.decapsulate {seed coins : Nat} {ct : List UInt8} {key : NapqesKey}
    (h : Succeeds H hkdf frodo seed coins ct key) (hfrodo : frodo.Correct) :
    decapsulateV8 H hkdf frodo ct (keygen frodo seed).2 = .ok key := by
  have henc := h.encapsulate
  unfold encapsulateV8 at henc
  split at henc
  case isFalse => cases henc
  case isTrue =>
    obtain ⟨derived, hderived, hout⟩ := bind_eq_ok.mp henc
    cases hout
    rw [decapsulateV8, if_neg (by simp [h.ciphertext]), if_neg (by simp [h.secretKey]), keygen,
      hfrodo.decapsulate_encapsulate seed coins, ← keygen]
    exact hderived

theorem recvFramed_of_le {payload : List UInt8} (h : payload.length ≤ 64 * 1024) :
    recvFramed payload = .ok payload := by
  rw [recvFramed, if_neg (Nat.not_lt.mpr h)]

/-- An exchange on a connection nobody has touched. -/
def exchangeOn (n seed coins : Nat) : List ExchangeAction :=
  [.connect, .accept (.initiator n) seed, .sendPk, .recvPk coins, .recvCt, .sendAck, .recvAck,
    .insertEgress, .insertIngress]

theorem runSteps_exchangeOn (hfrodo : frodo.Correct) {seed coins : Nat} {ct : List UInt8}
    {key : NapqesKey} (h : Succeeds H hkdf frodo seed coins ct key) (hidle : s.Idle)
    (hconn : s.conns (.initiator s.opened) = .fresh) :
    ∃ t, runSteps (step H hkdf frodo) s (exchangeOn s.opened seed coins) = some t ∧ t.Idle ∧
      t.ingressKey = some key ∧ t.egressKey = some key ∧ t.derived = key :: s.derived := by
  obtain ⟨hi, hr⟩ := hidle
  have hpk := recvFramed_of_le h.pk_le
  have hct := recvFramed_of_le h.ct_le
  simp [exchangeOn, runSteps, step, hi, hr, hconn, setConn, Conn.fresh, Conn.sendDown, Conn.sendUp,
    hpk, hct, ok_bind, h.encapsulate, h.decapsulate hfrodo, Waiting, Idle, ingressKey, egressKey,
    SessionKeyStore.insert]

/-- The steps of an exchange lose nothing and no call fails. -/
theorem recovering_exchangeOn {n seed coins : Nat} :
    ∀ a ∈ exchangeOn n seed coins, ∀ s, Recovering s a := by
  intro a ha s
  simp only [exchangeOn, List.mem_cons, List.not_mem_nil, or_false] at ha
  rcases ha with rfl | rfl | rfl | rfl | rfl | rfl | rfl | rfl | rfl
  all_goals trivial

/-- The initiator's second exchange, in which the ACK is lost; the responder already serves someone
else, and both connections are cut. -/
def brokenExchange : List ExchangeAction :=
  [.connect, .accept (.initiator 1) 3, .sendPk, .recvPk 4, .recvCt, .sendAck, .insertEgress,
    .accept (.other 0) 7, .cut (.initiator 1) 0 0, .cut (.other 0) 0 0]

theorem steps_brokenExchange (hidle : s.Idle) (hopened : s.opened = 1)
    (hconn : s.conns (.initiator 1) = .fresh ∧ s.conns (.other 0) = .fresh) :
    ∃ t, steps smallHmac smallHkdf smallFrodo s brokenExchange = some t ∧
      t.responder.conn = some (.other 0) ∧ t.initiator.conn = some (.initiator 1) ∧ CutOff t ∧
      t.ingress = s.ingress ∧
      t.egress = s.egress.insert wildcardDeviceId (smallKey [3, 4]) := by
  obtain ⟨hi, hr⟩ := hidle
  simp [brokenExchange, steps, step, hi, hr, hopened, hconn.1, hconn.2, setConn, Conn.fresh,
    Conn.sendDown, Conn.sendUp, keygen_small, recvFramed, encapsulateV8_small, decapsulateV8_small,
    Waiting, cutOff_iff, Responder.conn, Initiator.conn]

/-- An accepted connection with what is on the way. -/
def servedConn (down : List Down) (up : List (List UInt8)) : Conn :=
  { accepted := true, isCut := false, down, up }

/-- Every connection of the initiator but the first `n` ones is still to come, and those are
accepted. -/
structure Taken (s : Exchange) (n : Nat) : Prop where
  accepted : ∀ m < n, (s.conns (.initiator m)).accepted = true
  later : ∀ m, s.opened ≤ m → s.conns (.initiator m) = .fresh

/-- Where an exchange without losses stands, and how many steps it still has to make. The
responder may still have to insert a key while the initiator goes on. -/
inductive Phase (H : Hmac) (hkdf : Hkdf) (frodo : Frodo) (s : Exchange) : Nat → Prop where
  | idle : s.initiator = .resting → s.responder = .listening → Taken s s.opened →
      s.ingressKey = s.derived.head? → s.egressKey = s.derived.head? → Phase H hkdf frodo s 0
  | inserting (key : NapqesKey) : s.initiator = .resting → s.responder = .install key →
      Taken s s.opened → s.ingressKey = some key → s.derived.head? = some key →
      Phase H hkdf frodo s 1
  | connecting (n : Nat) : s.initiator = .awaitPk n → s.responder = .listening →
      s.opened = n + 1 → Taken s n → s.conns (.initiator n) = .fresh → Phase H hkdf frodo s 8
  | connectingInserting (n : Nat) (key : NapqesKey) : s.initiator = .awaitPk n →
      s.responder = .install key → s.opened = n + 1 → Taken s n →
      s.conns (.initiator n) = .fresh → Phase H hkdf frodo s 9
  | served (n seed : Nat) : s.initiator = .awaitPk n →
      s.responder = .accepted (.initiator n) (keygen frodo seed).1 (keygen frodo seed).2 →
      n < s.opened → Taken s s.opened → s.conns (.initiator n) = servedConn [] [] →
      Phase H hkdf frodo s 7
  | offered (n seed : Nat) : s.initiator = .awaitPk n →
      s.responder = .awaitCt (.initiator n) (keygen frodo seed).2 → n < s.opened →
      Taken s s.opened → s.conns (.initiator n) = servedConn [.frame (keygen frodo seed).1] [] →
      Phase H hkdf frodo s 6
  | answered (n seed coins : Nat) (ct : List UInt8) (key : NapqesKey) :
      s.initiator = .awaitAck n key →
      s.responder = .awaitCt (.initiator n) (keygen frodo seed).2 → n < s.opened →
      Taken s s.opened → s.conns (.initiator n) = servedConn [] [ct] →
      encapsulateV8 H hkdf frodo (keygen frodo seed).1 coins = .ok (ct, key) →
      s.derived.head? = some key → Phase H hkdf frodo s 5
  | decapsulated (n : Nat) (key : NapqesKey) : s.initiator = .awaitAck n key →
      s.responder = .sendAck (.initiator n) key → n < s.opened → Taken s s.opened →
      s.conns (.initiator n) = servedConn [] [] → s.derived.head? = some key →
      Phase H hkdf frodo s 4
  | acking (n : Nat) (key : NapqesKey) : s.initiator = .awaitAck n key →
      s.responder = .install key → n < s.opened → Taken s s.opened →
      s.conns (.initiator n) = servedConn [.byte ack] [] → s.derived.head? = some key →
      Phase H hkdf frodo s 3
  | ackingInserted (n : Nat) (key : NapqesKey) : s.initiator = .awaitAck n key →
      s.responder = .listening → n < s.opened → Taken s s.opened →
      s.conns (.initiator n) = servedConn [.byte ack] [] → s.derived.head? = some key →
      s.egressKey = some key → Phase H hkdf frodo s 2
  | installing (key : NapqesKey) : s.initiator = .install key → s.responder = .install key →
      Taken s s.opened → s.derived.head? = some key → Phase H hkdf frodo s 2
  | installingInserted (key : NapqesKey) : s.initiator = .install key →
      s.responder = .listening → Taken s s.opened → s.derived.head? = some key →
      s.egressKey = some key → Phase H hkdf frodo s 1

theorem Phase.init (H : Hmac) (hkdf : Hkdf) (frodo : Frodo) : Phase H hkdf frodo init 0 :=
  .idle rfl rfl ⟨fun _ hm => absurd hm (Nat.not_lt_zero _), fun _ _ => rfl⟩ rfl rfl

/-- The connection of the exchange in progress changes. -/
theorem Taken.setConn {n m : Nat} (h : Taken s n) (hm : m < s.opened) (down : List Down)
    (up : List (List UInt8)) : Taken (s.setConn (.initiator m) (servedConn down up)) n where
  accepted k hk := by
    rw [conns_setConn]
    split
    case isTrue => rfl
    case isFalse => exact h.accepted k hk
  later k hk := by
    have hlater : s.opened ≤ k := hk
    rw [conns_setConn, if_neg (by simp; omega)]
    exact h.later k hk

/-- Nobody waits to be accepted. -/
theorem Taken.not_waiting (h : Taken s s.opened) (n : Nat) : ¬ s.Waiting (.initiator n) := by
  rintro ⟨hn, hnot⟩
  rw [h.accepted n hn] at hnot
  cases hnot

theorem setConn_self (s : Exchange) (c : ConnId) (conn : Conn) :
    (s.setConn c conn).conns c = conn := by
  rw [conns_setConn, if_pos rfl]

/-- A new exchange begins. -/
theorem Phase.connect {k : Nat} (h : Phase H hkdf frodo s k)
    (hstep : Exchange.step H hkdf frodo s .connect = some t) :
    Phase H hkdf frodo t 8 ∨ Phase H hkdf frodo t 9 := by
  obtain ⟨hi, rfl⟩ := step_connect hstep
  cases h with
  | idle hi' hr htaken _ _ =>
      exact Or.inl (.connecting s.opened rfl hr rfl
        ⟨htaken.accepted, fun m hm => htaken.later m (Nat.le_of_succ_le hm)⟩
        (htaken.later _ (Nat.le_refl _)))
  | inserting key hi' hr htaken _ _ =>
      exact Or.inr (.connectingInserting s.opened key rfl hr rfl
        ⟨htaken.accepted, fun m hm => htaken.later m (Nat.le_of_succ_le hm)⟩
        (htaken.later _ (Nat.le_refl _)))
  | _ => simp_all

/-- The responder accepts the connection of the exchange. -/
theorem Phase.accept {k n seed : Nat} (h : Phase H hkdf frodo s k)
    (hstep : Exchange.step H hkdf frodo s (.accept (.initiator n) seed) = some t) :
    ∃ k', k = k' + 1 ∧ Phase H hkdf frodo t k' := by
  obtain ⟨hr, hwait, rfl⟩ := step_accept hstep
  cases h with
  | connecting m hi hr' hopened htaken hfresh =>
      obtain rfl : n = m := by
        obtain ⟨hn, hnot⟩ := hwait
        by_contra hne
        rw [htaken.accepted n (by omega)] at hnot
        cases hnot
      refine ⟨7, rfl, .served n seed hi rfl (by show n < s.opened; omega) ?_ ?_⟩
      · refine ⟨?_, ?_⟩
        · intro m hm
          have hm' : m < s.opened := hm
          show ((s.setConn (.initiator n) _).conns _).accepted = true
          rw [conns_setConn]
          split
          case isTrue => rfl
          case isFalse hne => exact htaken.accepted m (by simp at hne; omega)
        · intro m hm
          have hm' : s.opened ≤ m := hm
          show (s.setConn (.initiator n) _).conns _ = _
          rw [conns_setConn, if_neg (by simp; omega)]
          exact htaken.later m hm'
      · show (s.setConn (.initiator n) _).conns _ = _
        rw [setConn_self, hfresh]
        rfl
  | idle hi hr' htaken _ _ => exact absurd hwait (htaken.not_waiting n)
  | ackingInserted m key hi hr' hm htaken _ _ _ => exact absurd hwait (htaken.not_waiting n)
  | installingInserted key hi hr' htaken _ _ => exact absurd hwait (htaken.not_waiting n)
  | _ => simp_all

theorem Phase.sendPk {k : Nat} (h : Phase H hkdf frodo s k)
    (hstep : Exchange.step H hkdf frodo s .sendPk = some t) :
    ∃ k', k = k' + 1 ∧ Phase H hkdf frodo t k' := by
  obtain ⟨c, pk, sk, hr, rfl⟩ := step_sendPk hstep
  cases h with
  | served n seed hi hr' hn htaken hconn =>
      obtain ⟨rfl, rfl, rfl⟩ := Responder.accepted.inj (hr.symm.trans hr')
      have hsent : (s.conns (.initiator n)).sendDown (.frame (keygen frodo seed).1) =
          servedConn [.frame (keygen frodo seed).1] [] := by rw [hconn]; rfl
      have htaken' := htaken.setConn hn [.frame (keygen frodo seed).1] []
      rw [hsent]
      exact ⟨6, rfl, .offered n seed hi rfl hn ⟨htaken'.accepted, htaken'.later⟩
        (setConn_self ..)⟩
  | _ => simp_all

theorem Phase.recvPk {k coins : Nat} (h : Phase H hkdf frodo s k)
    (hkem : ∀ seed coins, ∃ ct key, Succeeds H hkdf frodo seed coins ct key)
    (hstep : Exchange.step H hkdf frodo s (.recvPk coins) = some t) :
    ∃ k', k = k' + 1 ∧ Phase H hkdf frodo t k' := by
  cases h with
  | offered n seed hi hr hn htaken hconn =>
      obtain ⟨ct, key, hsucceeds⟩ := hkem seed coins
      have hframe := recvFramed_of_le hsucceeds.pk_le
      simp only [Exchange.step, hi, hconn, servedConn, hframe, ok_bind, hsucceeds.encapsulate,
        Option.some.injEq] at hstep
      subst hstep
      have htaken' := htaken.setConn hn [] [ct]
      exact ⟨5, rfl, .answered n seed coins ct key rfl hr hn ⟨htaken'.accepted, htaken'.later⟩
        (setConn_self ..) hsucceeds.encapsulate rfl⟩
  | connecting n hi hr hopened htaken hfresh =>
      simp [Exchange.step, hi, hfresh, Conn.fresh] at hstep
  | connectingInserting n key hi hr hopened htaken hfresh =>
      simp [Exchange.step, hi, hfresh, Conn.fresh] at hstep
  | served n seed hi hr hn htaken hconn =>
      simp [Exchange.step, hi, hconn, servedConn] at hstep
  | _ => simp_all [Exchange.step]

theorem Phase.recvCt {k : Nat} (h : Phase H hkdf frodo s k) (hfrodo : frodo.Correct)
    (hkem : ∀ seed coins, ∃ ct key, Succeeds H hkdf frodo seed coins ct key)
    (hstep : Exchange.step H hkdf frodo s .recvCt = some t) :
    ∃ k', k = k' + 1 ∧ Phase H hkdf frodo t k' := by
  cases h with
  | answered n seed coins ct key hi hr hn htaken hconn henc hderived =>
      obtain ⟨ct', key', hsucceeds⟩ := hkem seed coins
      obtain ⟨rfl, rfl⟩ := Prod.mk.inj (Except.ok.inj (henc.symm.trans hsucceeds.encapsulate))
      have hframe := recvFramed_of_le hsucceeds.ct_le
      simp only [Exchange.step, hr, hconn, servedConn, hframe, ok_bind,
        hsucceeds.decapsulate hfrodo, Option.some.injEq] at hstep
      subst hstep
      have htaken' := htaken.setConn hn [] []
      exact ⟨4, rfl, .decapsulated n key hi rfl hn ⟨htaken'.accepted, htaken'.later⟩
        (setConn_self ..) hderived⟩
  | offered n seed hi hr hn htaken hconn =>
      simp [Exchange.step, hr, hconn, servedConn] at hstep
  | _ => simp_all [Exchange.step]

theorem Phase.sendAck {k : Nat} (h : Phase H hkdf frodo s k)
    (hstep : Exchange.step H hkdf frodo s .sendAck = some t) :
    ∃ k', k = k' + 1 ∧ Phase H hkdf frodo t k' := by
  obtain ⟨c, key, hr, rfl⟩ := step_sendAck hstep
  cases h with
  | decapsulated n key' hi hr' hn htaken hconn hderived =>
      obtain ⟨rfl, rfl⟩ := Responder.sendAck.inj (hr.symm.trans hr')
      have hsent : (s.conns (.initiator n)).sendDown (.byte ack) =
          servedConn [.byte ack] [] := by rw [hconn]; rfl
      have htaken' := htaken.setConn hn [.byte ack] []
      rw [hsent]
      exact ⟨3, rfl, .acking n key hi rfl hn ⟨htaken'.accepted, htaken'.later⟩
        (setConn_self ..) hderived⟩
  | _ => simp_all

theorem Phase.recvAck {k : Nat} (h : Phase H hkdf frodo s k)
    (hstep : Exchange.step H hkdf frodo s .recvAck = some t) :
    ∃ k', k = k' + 1 ∧ Phase H hkdf frodo t k' := by
  obtain ⟨n, key, b, rest, hi, hdown, rfl⟩ := step_recvAck hstep
  cases h with
  | acking m key' hi' hr hn htaken hconn hderived =>
      obtain ⟨rfl, rfl⟩ := Initiator.awaitAck.inj (hi.symm.trans hi')
      rw [hconn] at hdown
      obtain ⟨rfl, rfl⟩ : ack = b ∧ [] = rest := by simpa [servedConn] using hdown
      have htaken' := htaken.setConn hn [] []
      rw [hconn, if_neg (fun hne => hne rfl)]
      exact ⟨2, rfl, .installing key rfl hr ⟨htaken'.accepted, htaken'.later⟩ hderived⟩
  | ackingInserted m key' hi' hr hn htaken hconn hderived hegress =>
      obtain ⟨rfl, rfl⟩ := Initiator.awaitAck.inj (hi.symm.trans hi')
      rw [hconn] at hdown
      obtain ⟨rfl, rfl⟩ : ack = b ∧ [] = rest := by simpa [servedConn] using hdown
      have htaken' := htaken.setConn hn [] []
      rw [hconn, if_neg (fun hne => hne rfl)]
      exact ⟨1, rfl, .installingInserted key rfl hr ⟨htaken'.accepted, htaken'.later⟩ hderived
        hegress⟩
  | answered m seed coins ct key' hi' hr hn htaken hconn henc hderived =>
      obtain ⟨rfl, rfl⟩ := Initiator.awaitAck.inj (hi.symm.trans hi')
      rw [hconn] at hdown
      cases hdown
  | decapsulated m key' hi' hr hn htaken hconn hderived =>
      obtain ⟨rfl, rfl⟩ := Initiator.awaitAck.inj (hi.symm.trans hi')
      rw [hconn] at hdown
      cases hdown
  | _ => simp_all

theorem Phase.insertEgress {k : Nat} (h : Phase H hkdf frodo s k)
    (hstep : Exchange.step H hkdf frodo s .insertEgress = some t) :
    ∃ k', k = k' + 1 ∧ Phase H hkdf frodo t k' := by
  obtain ⟨key, hr, rfl⟩ := step_insertEgress hstep
  have hkey := egressKey_insert s key .listening
  cases h with
  | inserting key' hi hr' htaken hingress hderived =>
      obtain rfl := Responder.install.inj (hr.symm.trans hr')
      exact ⟨0, rfl, .idle hi rfl ⟨htaken.accepted, htaken.later⟩ (hingress.trans hderived.symm)
        (hkey.trans hderived.symm)⟩
  | connectingInserting n key' hi hr' hopened htaken hfresh =>
      exact ⟨8, rfl, .connecting n hi rfl hopened ⟨htaken.accepted, htaken.later⟩ hfresh⟩
  | acking n key' hi hr' hn htaken hconn hderived =>
      obtain rfl := Responder.install.inj (hr.symm.trans hr')
      exact ⟨2, rfl, .ackingInserted n key hi rfl hn ⟨htaken.accepted, htaken.later⟩ hconn hderived
        hkey⟩
  | installing key' hi hr' htaken hderived =>
      obtain rfl := Responder.install.inj (hr.symm.trans hr')
      exact ⟨1, rfl, .installingInserted key hi rfl ⟨htaken.accepted, htaken.later⟩ hderived hkey⟩
  | _ => simp_all

theorem Phase.insertIngress {k : Nat} (h : Phase H hkdf frodo s k)
    (hstep : Exchange.step H hkdf frodo s .insertIngress = some t) :
    ∃ k', k = k' + 1 ∧ Phase H hkdf frodo t k' := by
  obtain ⟨key, hi, rfl⟩ := step_insertIngress hstep
  have hkey := ingressKey_insert s key .resting
  cases h with
  | installing key' hi' hr htaken hderived =>
      obtain rfl := Initiator.install.inj (hi.symm.trans hi')
      exact ⟨1, rfl, .inserting key rfl hr ⟨htaken.accepted, htaken.later⟩ hkey hderived⟩
  | installingInserted key' hi' hr htaken hderived hegress =>
      obtain rfl := Initiator.install.inj (hi.symm.trans hi')
      exact ⟨0, rfl, .idle rfl hr ⟨htaken.accepted, htaken.later⟩ (hkey.trans hderived.symm)
        (hegress.trans hderived.symm)⟩
  | _ => simp_all

section
variable (hfrodo : frodo.Correct)
  (hkem : ∀ seed coins, ∃ ct key, Succeeds H hkdf frodo seed coins ct key)
include hfrodo hkem

/-- Every other step brings the exchange in progress nearer to its end. -/
theorem Phase.step {k : Nat} (h : Phase H hkdf frodo s k) {a : ExchangeAction}
    (hstep : Exchange.step H hkdf frodo s a = some t) (hlossless : Lossless a)
    (hne : a ≠ .connect) :
    ∃ k', k = k' + 1 ∧ Phase H hkdf frodo t k' := by
  cases a with
  | connect => exact absurd rfl hne
  | accept c seed =>
      cases c with
      | initiator n => exact h.accept hstep
      | other n => exact absurd hlossless id
  | sendPk => exact h.sendPk hstep
  | recvPk coins => exact h.recvPk hkem hstep
  | recvCt => exact h.recvCt hfrodo hkem hstep
  | sendAck => exact h.sendAck hstep
  | recvAck => exact h.recvAck hstep
  | insertEgress => exact h.insertEgress hstep
  | insertIngress => exact h.insertIngress hstep
  | sendOther | failResponder | failInitiator | cut => exact absurd hlossless id

/-- Every state of a lossless run is in some phase, and no phase has more than nine steps to go. -/
theorem phase_of_run (hrun : Runs H hkdf frodo (fun _ a => Lossless a) init s) :
    ∃ k ≤ 9, Phase H hkdf frodo s k := by
  refine Run.invariant (I := fun s => ∃ k ≤ 9, Phase H hkdf frodo s k) ?_ hrun
    ⟨0, Nat.zero_le _, .init H hkdf frodo⟩
  rintro s a t hstep hlossless ⟨k, hk, hphase⟩
  by_cases hconnect : a = .connect
  · subst hconnect
    rcases hphase.connect hstep with h | h
    · exact ⟨8, by decide, h⟩
    · exact ⟨9, Nat.le_refl _, h⟩
  · obtain ⟨k', rfl, h⟩ := hphase.step hfrodo hkem hstep hlossless hconnect
    exact ⟨k', Nat.le_of_succ_le hk, h⟩

/-- As long as steps are left, one of them can happen. -/
theorem Phase.enabled {k : Nat} (h : Phase H hkdf frodo s (k + 1)) :
    ∃ a, Lossless a ∧ a ≠ .connect ∧ (Exchange.step H hkdf frodo s a).isSome := by
  generalize hn : k + 1 = n at h
  cases h with
  | idle => cases hn
  | inserting key hi hr => exact ⟨.insertEgress, trivial, by simp, by simp [Exchange.step, hr]⟩
  | connecting n hi hr hopened htaken hfresh =>
      have hwait : s.Waiting (.initiator n) := ⟨by omega, by rw [hfresh]; rfl⟩
      exact ⟨.accept (.initiator n) 0, trivial, by simp, by simp [Exchange.step, hr, hwait]⟩
  | connectingInserting n key hi hr =>
      exact ⟨.insertEgress, trivial, by simp, by simp [Exchange.step, hr]⟩
  | served n seed hi hr => exact ⟨.sendPk, trivial, by simp, by simp [Exchange.step, hr]⟩
  | offered n seed hi hr hn' htaken hconn =>
      obtain ⟨ct, key, hsucceeds⟩ := hkem seed 0
      refine ⟨.recvPk 0, trivial, by simp, ?_⟩
      simp [Exchange.step, hi, hconn, servedConn, recvFramed_of_le hsucceeds.pk_le, ok_bind,
        hsucceeds.encapsulate]
  | answered n seed coins ct key hi hr hn' htaken hconn henc hderived =>
      obtain ⟨ct', key', hsucceeds⟩ := hkem seed coins
      obtain ⟨rfl, rfl⟩ := Prod.mk.inj (Except.ok.inj (henc.symm.trans hsucceeds.encapsulate))
      refine ⟨.recvCt, trivial, by simp, ?_⟩
      simp [Exchange.step, hr, hconn, servedConn, recvFramed_of_le hsucceeds.ct_le, ok_bind,
        hsucceeds.decapsulate hfrodo]
  | decapsulated n key hi hr => exact ⟨.sendAck, trivial, by simp, by simp [Exchange.step, hr]⟩
  | acking n key hi hr => exact ⟨.insertEgress, trivial, by simp, by simp [Exchange.step, hr]⟩
  | ackingInserted n key hi hr hn' htaken hconn =>
      exact ⟨.recvAck, trivial, by simp, by simp [Exchange.step, hi, hconn, servedConn]⟩
  | installing key hi hr => exact ⟨.insertEgress, trivial, by simp, by simp [Exchange.step, hr]⟩
  | installingInserted key hi hr =>
      exact ⟨.insertIngress, trivial, by simp, by simp [Exchange.step, hi]⟩

end

/-- With no step left, the two sides agree on the key that was derived last. -/
theorem Phase.agrees (h : Phase H hkdf frodo s 0) :
    s.Idle ∧ s.ingressKey = s.derived.head? ∧ s.egressKey = s.derived.head? := by
  cases h with
  | idle hi hr htaken hingress hegress => exact ⟨⟨hi, hr⟩, hingress, hegress⟩

/-- In every lossless run, the exchange in progress ends after nine further steps at most, in
whatever order they come, and nothing blocks it before: when no step but the next connect is left,
both stores hold the key that was derived last. -/
theorem exchange_terminates (H : Hmac) (hkdf : Hkdf) (frodo : Frodo) (hfrodo : frodo.Correct)
    (hkem : ∀ seed coins, ∃ ct key, Succeeds H hkdf frodo seed coins ct key) (s t : Exchange)
    (hrun : Runs H hkdf frodo (fun _ a => Lossless a) init s) (as : List ExchangeAction)
    (has : ∀ a ∈ as, Lossless a ∧ a ≠ .connect)
    (hsteps : runSteps (step H hkdf frodo) s as = some t) :
    as.length ≤ 9 ∧
      ((∃ a, Lossless a ∧ a ≠ .connect ∧ (step H hkdf frodo t a).isSome) ∨
        t.Idle ∧ t.ingressKey = t.derived.head? ∧ t.egressKey = t.derived.head?) := by
  obtain ⟨k, hk, hphase⟩ := phase_of_run hfrodo hkem hrun
  have huse : ∀ s a t k, step H hkdf frodo s a = some t → Lossless a ∧ a ≠ .connect →
      Phase H hkdf frodo s k → ∃ k', k' < k ∧ Phase H hkdf frodo t k' := by
    intro s a t k hstep hkind h
    obtain ⟨k', rfl, hnext⟩ := h.step hfrodo hkem hstep hkind.1 hkind.2
    exact ⟨k', Nat.lt_succ_self k', hnext⟩
  obtain ⟨k', hlen, hlast⟩ := runSteps_use_up huse has hsteps hphase
  refine ⟨by omega, ?_⟩
  cases k' with
  | zero => exact Or.inr hlast.agrees
  | succ k' => exact Or.inl (hlast.enabled hfrodo hkem)

/-- The steps of the first exchange after its connect. -/
theorem exchange_terminates_firstExchange :
    ∃ s t, smallFrodo.Correct ∧ (∀ seed coins, ∃ ct key,
        Succeeds smallHmac smallHkdf smallFrodo seed coins ct key) ∧
      Runs smallHmac smallHkdf smallFrodo (fun _ a => Lossless a) init s ∧
      runSteps (step smallHmac smallHkdf smallFrodo) s firstExchange.tail = some t ∧
      firstExchange.tail.length ≤ 9 ∧
      ((∃ a, Lossless a ∧ a ≠ .connect ∧ (step smallHmac smallHkdf smallFrodo t a).isSome) ∨
        t.Idle ∧ t.ingressKey = t.derived.head? ∧ t.egressKey = t.derived.head?) := by
  have hkem : ∀ seed coins, ∃ ct key, Succeeds smallHmac smallHkdf smallFrodo seed coins ct key :=
    fun seed coins => ⟨_, _, encapsulateV8_small _ _, by simp [keygen_small], by simp, rfl, rfl⟩
  obtain ⟨t, ht, -⟩ := steps_firstExchange
  rw [steps_eq] at ht
  obtain ⟨s, hs, hrest⟩ := Option.bind_eq_some_iff.mp ht
  have hrun : Runs smallHmac smallHkdf smallFrodo (fun _ a => Lossless a) init s :=
    (Run.refl init).next .connect hs trivial
  have htail : ∀ a ∈ firstExchange.tail, Lossless a ∧ a ≠ .connect := by
    intro a ha
    refine ⟨lossless_firstExchange a (List.mem_of_mem_tail ha), ?_⟩
    rintro rfl
    simp [firstExchange] at ha
  exact ⟨s, t, smallFrodo_correct, hkem, hrun, hrest, exchange_terminates smallHmac smallHkdf
    smallFrodo smallFrodo_correct hkem s t hrun _ htail hrest⟩

end Exchange

end Napqes.Rust
