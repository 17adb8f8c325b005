import Napqes.Rust.KemExchange
import Napqes.Rust.Proofs.Kem

/-!
# Steps of the key exchange

What each action of `Exchange.step` needs and what it leaves behind: one lemma for each action.
-/

namespace Napqes.Rust

namespace Exchange

variable {H : Hmac} {hkdf : Hkdf} {frodo : Frodo} {s t : Exchange}

/-! ## What the actions do -/

theorem conns_setConn (s : Exchange) (c c' : ConnId) (conn : Conn) :
    (s.setConn c conn).conns c' = if c' = c then conn else s.conns c' :=
  Function.update_apply ..

theorem step_connect (h : step H hkdf frodo s .connect = some t) :
    s.initiator = .resting ∧
      t = { s with initiator := .awaitPk s.opened, opened := s.opened + 1 } := by
  rw [step] at h
  split at h
  case h_1 hi =>
    cases h
    exact ⟨hi, rfl⟩
  case h_2 => cases h

theorem step_accept {c : ConnId} {seed : Nat} (h : step H hkdf frodo s (.accept c seed) = some t) :
    s.responder = .listening ∧ s.Waiting c ∧
      t = { s.setConn c { s.conns c with accepted := true } with
        responder := .accepted c (keygen frodo seed).1 (keygen frodo seed).2 } := by
  rw [step] at h
  split at h
  case h_1 hr =>
    split at h
    case isTrue hwait =>
      cases h
      exact ⟨hr, hwait, rfl⟩
    case isFalse => cases h
  case h_2 => cases h

theorem step_sendPk (h : step H hkdf frodo s .sendPk = some t) :
    ∃ c pk sk, s.responder = .accepted c pk sk ∧
      t = { s.setConn c ((s.conns c).sendDown (.frame pk)) with
        responder := .awaitCt c sk } := by
  rw [step] at h
  split at h
  case h_1 c pk sk hr =>
    cases h
    exact ⟨c, pk, sk, hr, rfl⟩
  case h_2 => cases h

/-- The key is encapsulated to what was received, or the initiator gives up. -/
theorem step_recvPk {coins : Nat} (h : step H hkdf frodo s (.recvPk coins) = some t) :
    ∃ n pk rest, s.initiator = .awaitPk n ∧
      (s.conns (.initiator n)).down = .frame pk :: rest ∧
      ((∃ ct key, encapsulateV8 H hkdf frodo pk coins = .ok (ct, key) ∧
        t = { s.setConn (.initiator n)
            (Conn.sendUp { s.conns (.initiator n) with down := rest } ct) with
          initiator := .awaitAck n key
          derived := key :: s.derived }) ∨
      t = { s.setConn (.initiator n) { s.conns (.initiator n) with down := rest } with
        initiator := .resting }) := by
  rw [step] at h
  split at h
  case h_2 => cases h
  case h_1 n hi =>
    simp only at h
    split at h
    case h_2 => cases h
    case h_1 pk rest hdown =>
      refine ⟨n, pk, rest, hi, hdown, ?_⟩
      split at h
      case h_1 ct key henc =>
        cases h
        obtain ⟨pk', hpk, henc⟩ := bind_eq_ok.mp henc
        unfold recvFramed at hpk
        split at hpk
        case isTrue => cases hpk
        case isFalse =>
          cases hpk
          exact Or.inl ⟨ct, key, henc, rfl⟩
      case h_2 =>
        cases h
        exact Or.inr rfl
      case h_3 => cases h

theorem step_sendOther {n : Nat} {frame : List UInt8}
    (h : step H hkdf frodo s (.sendOther n frame) = some t) :
    t = s.setConn (.other n) ((s.conns (.other n)).sendUp frame) := by
  cases h
  rfl

/-- The ciphertext decapsulates, or the responder gives up. -/
theorem step_recvCt (h : step H hkdf frodo s .recvCt = some t) :
    ∃ c sk ct rest r, s.responder = .awaitCt c sk ∧ (s.conns c).up = ct :: rest ∧
      t = { s.setConn c { s.conns c with up := rest } with responder := r } ∧
      (r = .listening ∨
        ∃ key, decapsulateV8 H hkdf frodo ct sk = .ok key ∧ r = .sendAck c key) := by
  rw [step] at h
  split at h
  case h_2 => cases h
  case h_1 c sk hr =>
    simp only at h
    split at h
    case h_2 => cases h
    case h_1 ct rest hup =>
      split at h
      case h_1 key hdec =>
        cases h
        obtain ⟨ct', hct, hdec⟩ := bind_eq_ok.mp hdec
        unfold recvFramed at hct
        split at hct
        case isTrue => cases hct
        case isFalse =>
          cases hct
          exact ⟨c, sk, ct, rest, _, hr, hup, rfl, Or.inr ⟨key, hdec, rfl⟩⟩
      case h_2 =>
        cases h
        exact ⟨c, sk, ct, rest, _, hr, hup, rfl, Or.inl rfl⟩
      case h_3 => cases h

theorem step_sendAck (h : step H hkdf frodo s .sendAck = some t) :
    ∃ c key, s.responder = .sendAck c key ∧
      t = { s.setConn c ((s.conns c).sendDown (.byte ack)) with responder := .install key } := by
  rw [step] at h
  split at h
  case h_1 c key hr =>
    cases h
    exact ⟨c, key, hr, rfl⟩
  case h_2 => cases h

theorem step_recvAck (h : step H hkdf frodo s .recvAck = some t) :
    ∃ n key b rest, s.initiator = .awaitAck n key ∧
      (s.conns (.initiator n)).down = .byte b :: rest ∧
      t = { s.setConn (.initiator n) { s.conns (.initiator n) with down := rest } with
        initiator := if b ≠ ack then .resting else .install key } := by
  rw [step] at h
  split at h
  case h_2 => cases h
  case h_1 n key hi =>
    simp only at h
    split at h
    case h_2 => cases h
    case h_1 b rest hdown =>
      cases h
      exact ⟨n, key, b, rest, hi, hdown, rfl⟩

theorem step_insertEgress (h : step H hkdf frodo s .insertEgress = some t) :
    ∃ key, s.responder = .install key ∧
      t = { s with egress := s.egress.insert wildcardDeviceId key, responder := .listening } := by
  rw [step] at h
  split at h
  case h_1 key hr =>
    cases h
    exact ⟨key, hr, rfl⟩
  case h_2 => cases h

theorem step_insertIngress (h : step H hkdf frodo s .insertIngress = some t) :
    ∃ key, s.initiator = .install key ∧
      t = { s with ingress := s.ingress.insert wildcardDeviceId key, initiator := .resting } := by
  rw [step] at h
  split at h
  case h_1 key hi =>
    cases h
    exact ⟨key, hi, rfl⟩
  case h_2 => cases h

theorem step_failResponder (h : step H hkdf frodo s .failResponder = some t) :
    (∀ key, s.responder ≠ .install key) ∧ t = { s with responder := .listening } := by
  rw [step] at h
  split at h
  case h_4 => cases h
  all_goals
    rename_i hr
    cases h
    refine ⟨?_, rfl⟩
    intro key hkey
    rw [hr] at hkey
    cases hkey

theorem step_failInitiator (h : step H hkdf frodo s .failInitiator = some t) :
    (∀ key, s.initiator ≠ .install key) ∧ t = { s with initiator := .resting } := by
  rw [step] at h
  split at h
  case h_3 => cases h
  all_goals
    rename_i hi
    cases h
    refine ⟨?_, rfl⟩
    intro key hkey
    rw [hi] at hkey
    cases hkey

theorem step_cut {c : ConnId} {down up : Nat} (h : step H hkdf frodo s (.cut c down up) = some t) :
    t = s.setConn c { s.conns c with
      isCut := true, down := (s.conns c).down.take down, up := (s.conns c).up.take up } := by
  cases h
  rfl

end Exchange

end Napqes.Rust
