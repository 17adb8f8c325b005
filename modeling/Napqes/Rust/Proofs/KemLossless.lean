import Napqes.Rust.Proofs.KemInvariant

/-!
# Lossless runs of the key exchange

Without losses and third parties nothing disturbs the exchange: the initiator waits for the ACK of
everything it has sent, until it has it.
-/

namespace Napqes.Rust

namespace Exchange

variable {H : Hmac} {hkdf : Hkdf} {frodo : Frodo} {s t : Exchange}

/-- Nothing is lost, no call fails and nobody else connects. -/
def Lossless : ExchangeAction → Prop
  | .accept (.other _) _ | .sendOther .. | .failResponder | .failInitiator | .cut .. => False
  | _ => True

/-- The invariant of lossless runs. -/
structure Live (s : Exchange) : Prop where
  uncut : ∀ n, (s.conns (.initiator n)).isCut = false
  single : ∀ n, (s.conns (.initiator n)).up.length ≤ 1
  sent : ∀ n, (s.conns (.initiator n)).up ≠ [] →
    (∃ key, s.initiator = .awaitAck n key) ∧ ∀ b, .byte b ∉ (s.conns (.initiator n)).down
  acking : ∀ n key, s.responder = .sendAck (.initiator n) key →
    (∃ key, s.initiator = .awaitAck n key) ∧ (s.conns (.initiator n)).up = []
  served : ∀ m, s.responder.conn ≠ some (.other m)

theorem Live.init : Live init where
  uncut _ := rfl
  single _ := Nat.zero_le _
  sent _ hne := absurd rfl hne
  acking n key hc := by cases hc
  served m hm := by cases hm

/-- While the initiator does not wait for an ACK, nothing it sent is on the way. -/
theorem Live.up_eq_nil (h : Live s) (hi : ∀ n key, s.initiator ≠ .awaitAck n key) (n : Nat) :
    (s.conns (.initiator n)).up = [] := by
  by_contra hne
  obtain ⟨⟨key, hkey⟩, -⟩ := h.sent n hne
  exact hi n key hkey

theorem Live.not_acking (h : Live s) (hi : ∀ n key, s.initiator ≠ .awaitAck n key) (n : Nat)
    (key : NapqesKey) : s.responder ≠ .sendAck (.initiator n) key := by
  intro hc
  obtain ⟨⟨key', hkey'⟩, -⟩ := h.acking n key hc
  exact hi n key' hkey'

/-- The responder serves nobody but the initiator. -/
theorem Live.serves (h : Live s) (c : ConnId) (hc : s.responder.conn = some c) :
    ∃ n, c = .initiator n := by
  cases c with
  | initiator n => exact ⟨n, rfl⟩
  | other m => exact absurd hc (h.served m)

/-- The initiator does not wait for an ACK, before the step nor after it, and connections change
by messages to the initiator only. -/
theorem Live.of_quiet (h : Live s) (hi : ∀ n key, s.initiator ≠ .awaitAck n key)
    (htr : t.responder = s.responder)
    (hconns : ∀ n, (t.conns (.initiator n)).isCut = (s.conns (.initiator n)).isCut ∧
      (t.conns (.initiator n)).up = (s.conns (.initiator n)).up) : Live t := by
  have hup : ∀ n, (t.conns (.initiator n)).up = [] := by
    intro n
    rw [(hconns n).2]
    exact h.up_eq_nil hi n
  refine ⟨?_, ?_, ?_, ?_, htr ▸ h.served⟩
  · intro n
    rw [(hconns n).1]
    exact h.uncut n
  · intro n
    rw [hup n]
    exact Nat.zero_le _
  · intro n hne
    exact absurd (hup n) hne
  · intro n key hc
    exact absurd (htr ▸ hc) (h.not_acking hi n key)

/-- The responder moves; it takes at most ciphertexts off connections and sends no ACK on one
with a ciphertext on it. -/
theorem Live.of_responder (h : Live s) (hti : t.initiator = s.initiator)
    (hcut : ∀ n, (t.conns (.initiator n)).isCut = (s.conns (.initiator n)).isCut)
    (hup : ∀ n, (t.conns (.initiator n)).up.Sublist (s.conns (.initiator n)).up)
    (hdown : ∀ n, (t.conns (.initiator n)).up ≠ [] → ∀ b,
      .byte b ∈ (t.conns (.initiator n)).down → .byte b ∈ (s.conns (.initiator n)).down)
    (hacking : ∀ n key, t.responder = .sendAck (.initiator n) key →
      (∃ key, s.initiator = .awaitAck n key) ∧ (t.conns (.initiator n)).up = [])
    (hserved : ∀ m, t.responder.conn ≠ some (.other m)) : Live t := by
  refine ⟨?_, ?_, ?_, ?_, hserved⟩
  · intro n
    rw [hcut n]
    exact h.uncut n
  · intro n
    exact Nat.le_trans (hup n).length_le (h.single n)
  · intro n hne
    have hne' : (s.conns (.initiator n)).up ≠ [] := by
      intro hnil
      have hsub := hup n
      rw [hnil] at hsub
      exact hne (List.sublist_nil.mp hsub)
    obtain ⟨hwait, hnoack⟩ := h.sent n hne'
    rw [hti]
    exact ⟨hwait, fun b hb => hnoack b (hdown n hne b hb)⟩
  · rw [hti]
    exact hacking

section
variable (h : Live s) (hs : Agreeing H hkdf frodo s)
include h hs

theorem Live.recvPk {coins : Nat} (hstep : Exchange.step H hkdf frodo s (.recvPk coins) = some t) :
    Live t := by
  obtain ⟨n, pk, rest, hi, hdown, hnext⟩ := step_recvPk hstep
  have hquiet : ∀ m key, s.initiator ≠ .awaitAck m key := by
    intro m key hm
    rw [hi] at hm
    cases hm
  have hup := h.up_eq_nil hquiet
  rcases hnext with ⟨ct, key, -, ht⟩ | ht
  · have hmoves : Moves s t (.initiator n)
        { s.conns (.initiator n) with down := rest, up := [ct] } := by
      refine moves_setConn ?_
      rw [ht, Conn.sendUp, if_neg (by simp [h.uncut n]), hup n]
      rfl
    refine ⟨?_, ?_, ?_, ?_, by subst ht; exact h.served⟩
    · intro m
      rw [hmoves.field_eq Conn.isCut rfl]
      exact h.uncut m
    · exact fun m => hmoves.still (P := fun conn => conn.up.length ≤ 1) (Nat.le_refl 1) (h.single m)
    · intro m hne
      by_cases hmn : m = n
      · subst hmn
        refine ⟨⟨key, by rw [ht]⟩, ?_⟩
        intro b hb
        rw [hmoves.self] at hb
        obtain ⟨-, key', hkey'⟩ := hs.wired.acks m b (hdown ▸ List.mem_cons_of_mem _ hb)
        exact hquiet m key' hkey'
      · rw [hmoves.other hmn] at hne
        exact absurd (hup m) hne
    · intro m key' hc
      subst ht
      exact absurd hc (h.not_acking hquiet m key')
  · have hmoves : Moves s t (.initiator n) { s.conns (.initiator n) with down := rest } :=
      moves_setConn (by rw [ht])
    refine h.of_quiet hquiet (by subst ht; rfl) ?_
    · exact fun m => ⟨hmoves.field_eq Conn.isCut rfl _, hmoves.field_eq Conn.up rfl _⟩

theorem Live.recvAck (hstep : Exchange.step H hkdf frodo s .recvAck = some t) : Live t := by
  obtain ⟨n, key, b, rest, hi, hdown, ht⟩ := step_recvAck hstep
  have hmoves : Moves s t (.initiator n) { s.conns (.initiator n) with down := rest } :=
    moves_setConn (by rw [ht])
  have hbyte : .byte b ∈ (s.conns (.initiator n)).down := by
    rw [hdown]
    exact List.mem_cons_self
  -- The ACK came after everything the initiator had sent was read.
  have hup : ∀ m, (s.conns (.initiator m)).up = [] := by
    intro m
    by_contra hne
    obtain ⟨⟨key', hkey'⟩, hnoack⟩ := h.sent m hne
    rw [hi] at hkey'
    cases hkey'
    exact hnoack b hbyte
  have htup : ∀ m, (t.conns (.initiator m)).up = [] := by
    intro m
    rw [hmoves.field_eq Conn.up rfl]
    exact hup m
  refine ⟨?_, ?_, ?_, ?_, by subst ht; exact h.served⟩
  · intro m
    rw [hmoves.field_eq Conn.isCut rfl]
    exact h.uncut m
  · intro m
    rw [htup m]
    exact Nat.zero_le _
  · intro m hne
    exact absurd (htup m) hne
  · intro m key' hc
    have hcs : s.responder = .sendAck (.initiator m) key' := by
      subst ht
      exact hc
    obtain ⟨⟨key'', hkey''⟩, -⟩ := h.acking m key' hcs
    rw [hi] at hkey''
    cases hkey''
    obtain ⟨-, -, hframes, -⟩ := hs.responder.sendAck _ key' hcs
    obtain ⟨pk, hpk⟩ := hframes _ hbyte
    cases hpk

omit hs in
theorem Live.recvCt (hstep : Exchange.step H hkdf frodo s .recvCt = some t) : Live t := by
  obtain ⟨c, sk, ct, rest, r, hr, hup, ht, hnext⟩ := step_recvCt hstep
  have hmoves : Moves s t c { s.conns c with up := rest } := moves_setConn (by rw [ht])
  have htr : t.responder = r := by rw [ht]
  have hconns : ∀ m, (t.conns (.initiator m)).isCut = (s.conns (.initiator m)).isCut ∧
      (t.conns (.initiator m)).up.Sublist (s.conns (.initiator m)).up ∧
      (t.conns (.initiator m)).down = (s.conns (.initiator m)).down := by
    intro m
    rw [hmoves]
    split
    case isTrue heq =>
      rw [heq, hup]
      exact ⟨rfl, List.sublist_cons_self _ _, rfl⟩
    case isFalse => exact ⟨rfl, .refl _, rfl⟩
  refine h.of_responder (by subst ht; rfl) (fun m => (hconns m).1) (fun m => (hconns m).2.1)
    ?_ ?_ ?_
  · intro m _ b hb
    rw [(hconns m).2.2] at hb
    exact hb
  · intro n key hc
    rcases hnext with rfl | ⟨key', -, rfl⟩
    · rw [htr] at hc
      cases hc
    · rw [htr] at hc
      cases hc
      obtain ⟨hwait, -⟩ := h.sent n (by rw [hup]; exact List.cons_ne_nil _ _)
      have hrest : rest = [] := by
        have hone := h.single n
        rw [hup, List.length_cons] at hone
        exact List.eq_nil_of_length_eq_zero (Nat.le_zero.mp (Nat.le_of_succ_le_succ hone))
      refine ⟨hwait, ?_⟩
      rw [hmoves.self, hrest]
  · intro m hm
    rcases hnext with rfl | ⟨key', -, rfl⟩
    · rw [htr] at hm
      cases hm
    · apply h.served m
      rw [hr]
      rw [htr] at hm
      exact hm

omit hs in
theorem Live.sendAck (hstep : Exchange.step H hkdf frodo s .sendAck = some t) : Live t := by
  obtain ⟨c, key, hr, ht⟩ := step_sendAck hstep
  obtain ⟨n, hc⟩ := h.serves c (by rw [hr]; rfl)
  subst hc
  obtain ⟨-, hup⟩ := h.acking n key hr
  have hmoves : Moves s t (.initiator n)
      { s.conns (.initiator n) with down := (s.conns (.initiator n)).down ++ [.byte ack] } := by
    refine moves_setConn ?_
    rw [ht, Conn.sendDown, if_neg (by simp [h.uncut n])]
  refine h.of_responder (by subst ht; rfl) (fun m => hmoves.field_eq Conn.isCut rfl _) ?_ ?_ ?_ ?_
  · intro m
    rw [hmoves.field_eq Conn.up rfl]
  · intro m hne b hb
    have hmn : m ≠ n := by
      intro heq
      subst heq
      rw [hmoves.self] at hne
      exact hne hup
    rw [hmoves.other hmn] at hb
    exact hb
  · intro m key' hc
    rw [ht] at hc
    cases hc
  · intro m hm
    rw [ht] at hm
    cases hm

omit hs in
theorem Live.accept {n seed : Nat}
    (hstep : Exchange.step H hkdf frodo s (.accept (.initiator n) seed) = some t) : Live t := by
  obtain ⟨-, -, ht⟩ := step_accept hstep
  have hmoves : Moves s t (.initiator n) { s.conns (.initiator n) with accepted := true } :=
    moves_setConn (by rw [ht])
  have hconns : ∀ m, (t.conns (.initiator m)).isCut = (s.conns (.initiator m)).isCut ∧
      (t.conns (.initiator m)).up = (s.conns (.initiator m)).up ∧
      (t.conns (.initiator m)).down = (s.conns (.initiator m)).down :=
    fun m => ⟨hmoves.field_eq Conn.isCut rfl _, hmoves.field_eq Conn.up rfl _,
      hmoves.field_eq Conn.down rfl _⟩
  refine h.of_responder (by subst ht; rfl) (fun m => (hconns m).1)
    (fun m => by rw [(hconns m).2.1]) ?_ ?_ ?_
  · intro m _ b hb
    rw [(hconns m).2.2] at hb
    exact hb
  · intro m key hc
    rw [ht] at hc
    cases hc
  · intro m hm
    rw [ht] at hm
    cases hm

theorem Live.sendPk (hstep : Exchange.step H hkdf frodo s .sendPk = some t) : Live t := by
  obtain ⟨c, pk, sk, hr, ht⟩ := step_sendPk hstep
  obtain ⟨n, rfl⟩ := h.serves c (by rw [hr]; rfl)
  obtain ⟨-, -, -, hdown, -⟩ := hs.responder.accepted n pk sk hr
  have hmoves : Moves s t (.initiator n) ((s.conns (.initiator n)).sendDown (.frame pk)) :=
    moves_setConn (by rw [ht])
  obtain ⟨-, hu, hd, -⟩ := sendDown_frame pk hdown
  have hcut : ((s.conns (.initiator n)).sendDown (.frame pk)).isCut =
      (s.conns (.initiator n)).isCut := by
    unfold Conn.sendDown
    split
    case isTrue => rfl
    case isFalse => rfl
  refine h.of_responder (by subst ht; rfl) (fun m => hmoves.field_eq Conn.isCut hcut _) ?_ ?_ ?_ ?_
  · intro m
    rw [hmoves.field_eq Conn.up hu]
  · intro m _ b hb
    by_cases hmn : m = n
    · subst hmn
      rw [hmoves.self] at hb
      cases hd _ hb
    · rw [hmoves.other hmn] at hb
      exact hb
  · intro m key hc
    rw [ht] at hc
    cases hc
  · intro m hm
    rw [ht] at hm
    cases hm

theorem Live.step {a : ExchangeAction} (hstep : Exchange.step H hkdf frodo s a = some t)
    (hcond : Lossless a) : Live t := by
  cases a with
  | connect =>
      obtain ⟨hi, rfl⟩ := step_connect hstep
      refine h.of_quiet ?_ rfl (fun n => ⟨rfl, rfl⟩)
      intro n key hn
      rw [hi] at hn
      cases hn
  | accept c seed =>
      cases c with
      | initiator n => exact h.accept hstep
      | other n => exact absurd hcond id
  | sendPk => exact h.sendPk hs hstep
  | recvPk coins => exact h.recvPk hs hstep
  | sendOther n frame => exact absurd hcond id
  | recvCt => exact h.recvCt hstep
  | sendAck => exact h.sendAck hstep
  | recvAck => exact h.recvAck hs hstep
  | insertEgress =>
      obtain ⟨key, -, rfl⟩ := step_insertEgress hstep
      refine h.of_responder rfl (fun n => rfl) (fun n => .refl _) (fun n _ b hb => hb) ?_ ?_
      · intro n key' hc
        cases hc
      · intro m hm
        cases hm
  | insertIngress =>
      obtain ⟨key, hi, rfl⟩ := step_insertIngress hstep
      refine h.of_quiet ?_ rfl (fun n => ⟨rfl, rfl⟩)
      intro n key' hn
      rw [hi] at hn
      cases hn
  | failResponder => exact absurd hcond id
  | failInitiator => exact absurd hcond id
  | cut c down up => exact absurd hcond id

omit hs in
/-- A lossless step is undisturbed. -/
theorem Live.undisturbed {a : ExchangeAction} (hcond : Lossless a) : Undisturbed s a := by
  cases a with
  | accept c seed => trivial
  | sendAck =>
      intro c key hr
      obtain ⟨n, rfl⟩ := h.serves c (by rw [hr]; rfl)
      obtain ⟨⟨key', hkey'⟩, -⟩ := h.acking n key hr
      exact ⟨n, key', rfl, hkey', h.uncut n⟩
  | failInitiator => exact absurd hcond id
  | cut c down up => exact absurd hcond id
  | connect => trivial
  | sendPk => trivial
  | recvPk coins => trivial
  | sendOther n frame => trivial
  | recvCt => trivial
  | recvAck => trivial
  | insertEgress => trivial
  | insertIngress => trivial
  | failResponder => trivial

end

end Exchange

end Napqes.Rust
