import Napqes.Rust.Proofs.KemExchange

/-!
# The invariant of the key exchange

The responder inserts its key after it has sent the ACK, the initiator after it has received it.
Between the two the stores differ, and they stay different if the ACK does not arrive or if the
exchange was not the initiator's. As long as neither happens (`Undisturbed`), the keys that the
two sides hold or are about to insert are the same (`Agreeing`).
-/

namespace Napqes.Rust

/-- The connection the responder serves. -/
def Responder.conn : Responder → Option ConnId
  | .accepted c _ _ | .awaitCt c _ | .sendAck c _ => some c
  | .listening | .install _ => none

namespace Exchange

variable {H : Hmac} {hkdf : Hkdf} {frodo : Frodo} {s t : Exchange}

/-! ## Keys held and keys pending -/

/-- The key the ingress uses for every device. -/
def ingressKey (s : Exchange) : Option NapqesKey := s.ingress.inner wildcardDeviceId

/-- The key the egress uses for every device. -/
def egressKey (s : Exchange) : Option NapqesKey := s.egress.inner wildcardDeviceId

/-- The key that the initiator inserts next: it has the ACK, or the ACK is on the way. -/
def ingressPending (s : Exchange) : Option NapqesKey :=
  match s.initiator with
  | .awaitAck n key => if .byte ack ∈ (s.conns (.initiator n)).down then some key else none
  | .install key => some key
  | _ => none

/-- The key that the responder inserts next. -/
def egressPending (s : Exchange) : Option NapqesKey :=
  match s.responder with
  | .install key => some key
  | _ => none

theorem ingressKey_insert (s : Exchange) (key : NapqesKey) (i : Initiator) :
    ingressKey { s with ingress := s.ingress.insert wildcardDeviceId key, initiator := i } =
      some key := by
  simp only [ingressKey, SessionKeyStore.insert, Function.update_self]

theorem egressKey_insert (s : Exchange) (key : NapqesKey) (r : Responder) :
    egressKey { s with egress := s.egress.insert wildcardDeviceId key, responder := r } =
      some key := by
  simp only [egressKey, SessionKeyStore.insert, Function.update_self]

/-- The responder sends no ACK to anyone but the initiator, and only while the initiator waits for
it on a connection that is not cut. The connection is not cut, and the initiator does not give up,
while the ACK is on the way. -/
def Undisturbed (s : Exchange) : ExchangeAction → Prop
  | .sendAck => ∀ c key, s.responder = .sendAck c key →
      ∃ n key', c = .initiator n ∧ s.initiator = .awaitAck n key' ∧ (s.conns c).isCut = false
  | .failInitiator => ∀ n key, s.initiator = .awaitAck n key →
      .byte ack ∉ (s.conns (.initiator n)).down
  | .cut c _ _ => .byte ack ∉ (s.conns c).down
  | _ => True

/-! ## The invariant -/

/-- The keys of the two sides: the same after what is pending, and the same old one until the
first side inserts. -/
structure KeysAgree (s : Exchange) : Prop where
  final : s.ingressPending.or s.ingressKey = s.egressPending.or s.egressKey
  both : s.ingressPending ≠ none → s.egressPending ≠ none → s.ingressKey = s.egressKey

/-- What holds of the initiator's connection and key. -/
structure InitiatorOk (s : Exchange) : Prop where
  awaitPk : ∀ n, s.initiator = .awaitPk n → n < s.opened ∧ (s.conns (.initiator n)).up = [] ∧
    (s.conns (.initiator n)).down.length ≤ 1
  awaitAck : ∀ n key, s.initiator = .awaitAck n key → key ∈ s.derived ∧ n < s.opened ∧
    (s.conns (.initiator n)).accepted = true ∧
    ((s.conns (.initiator n)).down = [] ∨ (s.conns (.initiator n)).down = [.byte ack])
  install : ∀ key, s.initiator = .install key → key ∈ s.derived
  stored : ∀ key, s.ingressKey = some key → key ∈ s.derived

/-- What holds of the responder's connection, if it is one of the initiator's: what the initiator
has sent on it is encapsulated to the public key of which the responder holds the secret key. -/
structure ResponderOk (H : Hmac) (hkdf : Hkdf) (frodo : Frodo) (s : Exchange) : Prop where
  accepted : ∀ n pk sk, s.responder = .accepted (.initiator n) pk sk → ∃ seed,
    n < s.opened ∧ (s.conns (.initiator n)).accepted = true ∧
    (s.conns (.initiator n)).down = [] ∧ (s.conns (.initiator n)).up = [] ∧
    (∀ key, s.initiator ≠ .awaitAck n key) ∧ keygen frodo seed = (pk, sk)
  awaitCt : ∀ n sk, s.responder = .awaitCt (.initiator n) sk → ∃ seed, n < s.opened ∧
    (s.conns (.initiator n)).accepted = true ∧ sk = (keygen frodo seed).2 ∧
    (∀ m ∈ (s.conns (.initiator n)).down, m = .frame (keygen frodo seed).1) ∧
    ∀ ct ∈ (s.conns (.initiator n)).up, ∃ coins key,
      encapsulateV8 H hkdf frodo (keygen frodo seed).1 coins = .ok (ct, key) ∧
      ∀ key', s.initiator = .awaitAck n key' → key' = key
  sendAck : ∀ n key, s.responder = .sendAck (.initiator n) key → n < s.opened ∧
    (s.conns (.initiator n)).accepted = true ∧
    (∀ m ∈ (s.conns (.initiator n)).down, ∃ pk, m = .frame pk) ∧
    s.initiator ≠ .awaitPk n ∧ ∀ key', s.initiator = .awaitAck n key' → key' = key

/-- The connections of the initiator: nothing is on one that has not been accepted, the ones still
to be opened have not been, and an ACK is only on the way to an initiator that waits for it. -/
structure Wired (s : Exchange) : Prop where
  fresh : ∀ n, (s.conns (.initiator n)).accepted = false →
    (s.conns (.initiator n)).down = [] ∧ (s.conns (.initiator n)).up = []
  later : ∀ n, s.opened ≤ n → (s.conns (.initiator n)).accepted = false
  acks : ∀ n b, .byte b ∈ (s.conns (.initiator n)).down →
    b = ack ∧ ∃ key, s.initiator = .awaitAck n key

/-- The invariant of undisturbed runs. -/
structure Agreeing (H : Hmac) (hkdf : Hkdf) (frodo : Frodo) (s : Exchange) : Prop where
  wired : Wired s
  initiator : InitiatorOk s
  responder : ResponderOk H hkdf frodo s
  keys : KeysAgree s

theorem Agreeing.init (H : Hmac) (hkdf : Hkdf) (frodo : Frodo) : Agreeing H hkdf frodo init where
  wired := ⟨fun _ _ => ⟨rfl, rfl⟩, fun _ _ => rfl, fun _ _ hb => by cases hb⟩
  initiator := by
    refine ⟨?_, ?_, ?_, ?_⟩
    · intro n hn
      cases hn
    · intro n key hn
      cases hn
    · intro key hn
      cases hn
    · intro key hn
      cases hn
  responder := by
    refine ⟨?_, ?_, ?_⟩
    · intro c pk sk hr
      cases hr
    · intro c sk hr
      cases hr
    · intro c key hr
      cases hr
  keys := ⟨rfl, fun hne => absurd rfl hne⟩

/-! ## Frame lemmas -/

/-- `t` has the connections of `s`, but for one. -/
def Moves (s t : Exchange) (c : ConnId) (conn : Conn) : Prop :=
  ∀ c', t.conns c' = if c' = c then conn else s.conns c'

theorem moves_setConn {c : ConnId} {conn : Conn} (h : t.conns = (s.setConn c conn).conns) :
    Moves s t c conn := by
  intro c'
  rw [h, conns_setConn]

theorem Moves.self {c : ConnId} {conn : Conn} (h : Moves s t c conn) : t.conns c = conn := by
  rw [h c, if_pos rfl]

theorem Moves.other {n m : Nat} {conn : Conn} (h : Moves s t (.initiator n) conn) (hm : m ≠ n) :
    t.conns (.initiator m) = s.conns (.initiator m) := by
  rw [h, if_neg (by simpa using hm)]

theorem Moves.initiator {m : Nat} {conn : Conn} (h : Moves s t (.other m) conn) (n : Nat) :
    t.conns (.initiator n) = s.conns (.initiator n) := by
  rw [h, if_neg (by simp)]

/-- What the connection keeps that changes is kept by all. -/
theorem Moves.field_eq {β : Type} {c : ConnId} {conn : Conn} (h : Moves s t c conn) (f : Conn → β)
    (hf : f conn = f (s.conns c)) (c' : ConnId) : f (t.conns c') = f (s.conns c') := by
  rw [h c']
  split
  case isTrue heq => rw [heq, hf]
  case isFalse => rfl

/-- What held of a connection and holds of the one that changes still holds. -/
theorem Moves.still {P : Conn → Prop} {c c' : ConnId} {conn : Conn} (h : Moves s t c conn)
    (hself : P conn) (hother : P (s.conns c')) : P (t.conns c') := by
  rw [h c']
  split
  case isTrue => exact hself
  case isFalse => exact hother

/-- The public key on a connection with nothing on it; it may be lost. -/
theorem sendDown_frame {conn : Conn} (pk : List UInt8) (hdown : conn.down = []) :
    (conn.sendDown (.frame pk)).accepted = conn.accepted ∧
      (conn.sendDown (.frame pk)).up = conn.up ∧
      (∀ m ∈ (conn.sendDown (.frame pk)).down, m = .frame pk) ∧
      (conn.sendDown (.frame pk)).down.length ≤ 1 := by
  unfold Conn.sendDown
  split
  case isTrue => simp [hdown]
  case isFalse => simp [hdown]

/-- The ciphertext on a connection from which the public key has been read; it may be lost. -/
theorem sendUp_emptied {conn : Conn} (ct : List UInt8) (hup : conn.up = []) :
    (Conn.sendUp { conn with down := [] } ct).accepted = conn.accepted ∧
      (Conn.sendUp { conn with down := [] } ct).down = [] ∧
      ∀ ct' ∈ (Conn.sendUp { conn with down := [] } ct).up, ct' = ct := by
  unfold Conn.sendUp
  split
  case isTrue => simp [hup]
  case isFalse => simp [hup]

/-- A connection from which messages have been taken. -/
def ConnLe (conn conn' : Conn) : Prop :=
  conn'.accepted = conn.accepted ∧ conn'.down.Sublist conn.down ∧ conn'.up.Sublist conn.up

theorem ConnLe.refl (conn : Conn) : ConnLe conn conn := ⟨rfl, .refl _, .refl _⟩

theorem Moves.connLe {c : ConnId} {conn : Conn} (h : Moves s t c conn)
    (hle : ConnLe (s.conns c) conn) (c' : ConnId) : ConnLe (s.conns c') (t.conns c') := by
  rw [h c']
  split
  case isTrue heq =>
    rw [heq]
    exact hle
  case isFalse => exact .refl _

/-- Messages are taken off, and the initiator does not leave a connection with an ACK on it. -/
theorem Wired.of_connLe (h : Wired s) (hopened : s.opened ≤ t.opened)
    (hle : ∀ n, ConnLe (s.conns (.initiator n)) (t.conns (.initiator n)))
    (hack : ∀ n b key, s.initiator = .awaitAck n key →
      .byte b ∈ (t.conns (.initiator n)).down → ∃ key, t.initiator = .awaitAck n key) :
    Wired t := by
  refine ⟨?_, ?_, ?_⟩
  · intro n hn
    obtain ⟨ha, hd, hu⟩ := hle n
    obtain ⟨hdown, hup⟩ := h.fresh n (ha ▸ hn)
    rw [hdown] at hd
    rw [hup] at hu
    exact ⟨List.sublist_nil.mp hd, List.sublist_nil.mp hu⟩
  · intro n hn
    rw [(hle n).1]
    exact h.later n (Nat.le_trans hopened hn)
  · intro n b hb
    obtain ⟨heq, key, hkey⟩ := h.acks n b ((hle n).2.1.subset hb)
    exact ⟨heq, hack n b key hkey hb⟩

/-- An accepted connection changes. -/
theorem Wired.of_moves (h : Wired s) {n : Nat} {conn : Conn}
    (hmoves : Moves s t (.initiator n) conn) (hn : n < s.opened) (hopened : t.opened = s.opened)
    (haccepted : conn.accepted = true)
    (hself : ∀ b, .byte b ∈ conn.down → b = ack ∧ ∃ key, t.initiator = .awaitAck n key)
    (hother : ∀ m key, m ≠ n → s.initiator = .awaitAck m key →
      ∃ key, t.initiator = .awaitAck m key) : Wired t := by
  refine ⟨?_, ?_, ?_⟩
  · intro m hm
    by_cases hmn : m = n
    · subst hmn
      rw [hmoves.self, haccepted] at hm
      cases hm
    · rw [hmoves.other hmn] at hm ⊢
      exact h.fresh m hm
  · intro m hm
    rw [hopened] at hm
    rw [hmoves.other (Nat.ne_of_gt (Nat.lt_of_lt_of_le hn hm))]
    exact h.later m hm
  · intro m b hb
    by_cases hmn : m = n
    · subst hmn
      rw [hmoves.self] at hb
      exact hself b hb
    · rw [hmoves.other hmn] at hb
      obtain ⟨heq, key, hkey⟩ := h.acks m b hb
      exact ⟨heq, hother m key hmn hkey⟩

/-- The responder's part survives a step of another party that only takes messages off its
connection and does not bring the initiator to `awaitAck`, or to `awaitPk` on an old connection. -/
theorem ResponderOk.of_step (h : ResponderOk H hkdf frodo s) (hr : t.responder = s.responder)
    (hopened : s.opened ≤ t.opened)
    (hconns : ∀ n, ConnLe (s.conns (.initiator n)) (t.conns (.initiator n)))
    (hack : ∀ n key, t.initiator = .awaitAck n key → s.initiator = .awaitAck n key)
    (hpk : ∀ n < s.opened, t.initiator = .awaitPk n → s.initiator = .awaitPk n) :
    ResponderOk H hkdf frodo t := by
  refine ⟨?_, ?_, ?_⟩
  · intro n pk sk hc
    obtain ⟨seed, hn, haccepted, hdown, hup, hwait, hkeys⟩ := h.accepted n pk sk (hr ▸ hc)
    obtain ⟨ha, hd, hu⟩ := hconns n
    rw [hdown] at hd
    rw [hup] at hu
    exact ⟨seed, Nat.lt_of_lt_of_le hn hopened, ha.trans haccepted,
      List.sublist_nil.mp hd, List.sublist_nil.mp hu, fun key hkey => hwait key (hack n key hkey),
      hkeys⟩
  · intro n sk hc
    obtain ⟨seed, hn, haccepted, hsk, hdown, hup⟩ := h.awaitCt n sk (hr ▸ hc)
    obtain ⟨ha, hd, hu⟩ := hconns n
    refine ⟨seed, Nat.lt_of_lt_of_le hn hopened, ha.trans haccepted, hsk,
      fun m hm => hdown m (hd.subset hm), ?_⟩
    intro ct hct
    obtain ⟨coins, key, henc, hkey⟩ := hup ct (hu.subset hct)
    exact ⟨coins, key, henc, fun key' hkey' => hkey key' (hack n key' hkey')⟩
  · intro n key hc
    obtain ⟨hn, haccepted, hdown, hne, hkey⟩ := h.sendAck n key (hr ▸ hc)
    obtain ⟨ha, hd, -⟩ := hconns n
    exact ⟨Nat.lt_of_lt_of_le hn hopened, ha.trans haccepted,
      fun m hm => hdown m (hd.subset hm), fun heq => hne (hpk n hn heq),
      fun key' hkey' => hkey key' (hack n key' hkey')⟩

/-- There is nothing to keep while the responder does not serve the initiator. -/
theorem responderOk_of_conn (h : ∀ n, t.responder.conn ≠ some (.initiator n)) :
    ResponderOk H hkdf frodo t := by
  refine ⟨?_, ?_, ?_⟩
  · intro n pk sk hc
    exact absurd (by rw [hc]; rfl) (h n)
  · intro n sk hc
    exact absurd (by rw [hc]; rfl) (h n)
  · intro n key hc
    exact absurd (by rw [hc]; rfl) (h n)

theorem responderOk_of_none (h : t.responder.conn = none) : ResponderOk H hkdf frodo t := by
  apply responderOk_of_conn
  intro n hn
  rw [h] at hn
  cases hn

theorem responderOk_of_other {m : Nat} (h : t.responder.conn = some (.other m)) :
    ResponderOk H hkdf frodo t := by
  apply responderOk_of_conn
  intro n hn
  rw [h] at hn
  cases hn

/-- The responder's part survives the step in which the initiator encapsulates to its public
key. -/
theorem ResponderOk.of_recvPk (h : ResponderOk H hkdf frodo s) {n coins : Nat} {pk ct : List UInt8}
    {key : NapqesKey} {conn : Conn} (hi : s.initiator = .awaitPk n)
    (hdown : (s.conns (.initiator n)).down = [.frame pk])
    (henc : encapsulateV8 H hkdf frodo pk coins = .ok (ct, key))
    (hmoves : Moves s t (.initiator n) conn) (hti : t.initiator = .awaitAck n key)
    (htr : t.responder = s.responder) (hto : t.opened = s.opened)
    (haccepted : conn.accepted = true) (hd : conn.down = []) (hu : ∀ ct' ∈ conn.up, ct' = ct) :
    ResponderOk H hkdf frodo t := by
  have hother : ∀ m key', t.initiator = .awaitAck m key' → m = n ∧ key' = key := by
    intro m key' hm
    rw [hti] at hm
    cases hm
    exact ⟨rfl, rfl⟩
  refine ⟨?_, ?_, ?_⟩
  · intro m pk' sk hc
    obtain ⟨seed, hm, haccepted', hdown', hup', -, hkeys⟩ := h.accepted m pk' sk (htr ▸ hc)
    have hmn : m ≠ n := by
      intro heq
      subst heq
      rw [hdown] at hdown'
      cases hdown'
    refine ⟨seed, hto ▸ hm, ?_⟩
    rw [hmoves.other hmn]
    exact ⟨haccepted', hdown', hup', fun key' hkey' => hmn (hother m key' hkey').1, hkeys⟩
  · intro m sk hc
    obtain ⟨seed, hm, haccepted', hsk, hdown', hup'⟩ := h.awaitCt m sk (htr ▸ hc)
    refine ⟨seed, hto ▸ hm, ?_⟩
    by_cases hmn : m = n
    · subst hmn
      have hpk : .frame pk = Down.frame (keygen frodo seed).1 := by
        apply hdown'
        rw [hdown]
        exact List.mem_cons_self
      cases hpk
      rw [hmoves.self]
      refine ⟨haccepted, hsk, ?_, ?_⟩
      · intro msg hmsg
        rw [hd] at hmsg
        cases hmsg
      · intro ct' hct'
        rw [hu ct' hct']
        exact ⟨coins, key, henc, fun key' hkey' => (hother m key' hkey').2⟩
    · rw [hmoves.other hmn]
      refine ⟨haccepted', hsk, hdown', ?_⟩
      intro ct' hct'
      obtain ⟨coins', key'', henc', -⟩ := hup' ct' hct'
      exact ⟨coins', key'', henc', fun key' hkey' => absurd (hother m key' hkey').1 hmn⟩
  · intro m key'' hc
    obtain ⟨hm, haccepted', hdown', hne, -⟩ := h.sendAck m key'' (htr ▸ hc)
    have hmn : m ≠ n := fun heq => hne (heq ▸ hi)
    refine ⟨hto ▸ hm, ?_⟩
    rw [hmoves.other hmn]
    refine ⟨haccepted', hdown', ?_, fun key' hkey' => absurd (hother m key' hkey').1 hmn⟩
    intro hm'
    rw [hti] at hm'
    cases hm'

/-- The initiator's part survives a step of another party that adds nothing to what waits for the
responder and leaves the connection of a waiting initiator with the ACK or nothing on it. -/
theorem InitiatorOk.of_step (h : InitiatorOk s) (hi : t.initiator = s.initiator)
    (hopened : t.opened = s.opened) (hderived : t.derived = s.derived)
    (hkey : t.ingressKey = s.ingressKey)
    (hup : ∀ n, (t.conns (.initiator n)).up.Sublist (s.conns (.initiator n)).up)
    (hpk : ∀ n, s.initiator = .awaitPk n → (s.conns (.initiator n)).down.length ≤ 1 →
      (t.conns (.initiator n)).down.length ≤ 1)
    (hack : ∀ n key, s.initiator = .awaitAck n key →
      (s.conns (.initiator n)).accepted = true →
      ((s.conns (.initiator n)).down = [] ∨ (s.conns (.initiator n)).down = [.byte ack]) →
      (t.conns (.initiator n)).accepted = true ∧
      ((t.conns (.initiator n)).down = [] ∨ (t.conns (.initiator n)).down = [.byte ack])) :
    InitiatorOk t := by
  refine ⟨?_, ?_, ?_, ?_⟩
  · intro n hn
    obtain ⟨hlt, hnil, hone⟩ := h.awaitPk n (hi ▸ hn)
    have hsub := hup n
    rw [hnil] at hsub
    exact ⟨hopened ▸ hlt, List.sublist_nil.mp hsub, hpk n (hi ▸ hn) hone⟩
  · intro n key hn
    obtain ⟨hmem, hlt, haccepted, hdown⟩ := h.awaitAck n key (hi ▸ hn)
    obtain ⟨haccepted', hdown'⟩ := hack n key (hi ▸ hn) haccepted hdown
    exact ⟨hderived ▸ hmem, hopened ▸ hlt, haccepted', hdown'⟩
  · intro key hn
    rw [hderived]
    exact h.install key (hi ▸ hn)
  · intro key hn
    rw [hderived]
    exact h.stored key (hkey ▸ hn)

theorem ingressPending_eq_of_ack (hi : t.initiator = s.initiator)
    (hack : ∀ n key, s.initiator = .awaitAck n key →
      (Down.byte ack ∈ (t.conns (.initiator n)).down ↔
        Down.byte ack ∈ (s.conns (.initiator n)).down)) :
    t.ingressPending = s.ingressPending := by
  unfold ingressPending
  rw [hi]
  split
  case h_1 n key heq =>
    by_cases hmem : Down.byte ack ∈ (s.conns (.initiator n)).down
    · rw [if_pos hmem, if_pos ((hack n key heq).mpr hmem)]
    · rw [if_neg hmem, if_neg (fun hmem' => hmem ((hack n key heq).mp hmem'))]
  case h_2 => rfl
  case h_3 => rfl

theorem egressPending_of_ne (h : ∀ key, s.responder ≠ .install key) : s.egressPending = none := by
  unfold egressPending
  split
  case h_1 key heq => exact absurd heq (h key)
  case h_2 => rfl

theorem KeysAgree.congr (h : KeysAgree s) (hip : t.ingressPending = s.ingressPending)
    (hep : t.egressPending = s.egressPending) (hik : t.ingressKey = s.ingressKey)
    (hek : t.egressKey = s.egressKey) : KeysAgree t := by
  refine ⟨?_, ?_⟩
  · rw [hip, hep, hik, hek]
    exact h.final
  · rw [hip, hep, hik, hek]
    exact h.both

/-! ## One step -/

section
variable (h : Agreeing H hkdf frodo s)
include h

/-- Connections lose messages, but not the ACK the initiator waits for. -/
theorem Agreeing.of_network (hti : t.initiator = s.initiator) (htr : t.responder = s.responder)
    (hto : t.opened = s.opened) (hderived : t.derived = s.derived)
    (hingress : t.ingressKey = s.ingressKey) (hegress : t.egressKey = s.egressKey)
    (hle : ∀ n, ConnLe (s.conns (.initiator n)) (t.conns (.initiator n)))
    (hack : ∀ n key, s.initiator = .awaitAck n key →
      (t.conns (.initiator n)).down = (s.conns (.initiator n)).down) : Agreeing H hkdf frodo t := by
  refine ⟨?_, ?_, ?_, ?_⟩
  · refine h.wired.of_connLe (Nat.le_of_eq hto.symm) hle ?_
    intro n b key hn _
    exact ⟨key, hti.trans hn⟩
  · refine h.initiator.of_step hti hto hderived hingress (fun n => (hle n).2.2)
      (fun n _ hone => Nat.le_trans (hle n).2.1.length_le hone) ?_
    intro n key hn haccepted hdown
    rw [(hle n).1, hack n key hn]
    exact ⟨haccepted, hdown⟩
  · refine h.responder.of_step htr (Nat.le_of_eq hto.symm) hle ?_ ?_
    · intro n key hn
      exact hti ▸ hn
    · intro n _ hn
      exact hti ▸ hn
  · have hpending : t.egressPending = s.egressPending := by
      rw [egressPending, egressPending, htr]
    refine h.keys.congr (ingressPending_eq_of_ack hti ?_) hpending hingress hegress
    intro n key hn
    rw [hack n key hn]

/-- The initiator rests again without a new key, and no ACK is on the way to it. -/
theorem Agreeing.of_resting (hti : t.initiator = .resting) (htr : t.responder = s.responder)
    (hto : t.opened = s.opened) (hderived : t.derived = s.derived)
    (hingress : t.ingressKey = s.ingressKey) (hegress : t.egressKey = s.egressKey)
    (hle : ∀ n, ConnLe (s.conns (.initiator n)) (t.conns (.initiator n)))
    (hpending : s.ingressPending = none)
    (hack : ∀ n b key, s.initiator = .awaitAck n key →
      .byte b ∉ (t.conns (.initiator n)).down) : Agreeing H hkdf frodo t := by
  refine ⟨?_, ⟨?_, ?_, ?_, ?_⟩, ?_, ?_⟩
  · refine h.wired.of_connLe (Nat.le_of_eq hto.symm) hle ?_
    intro n b key hn hb
    exact absurd hb (hack n b key hn)
  · intro n hn
    rw [hti] at hn
    cases hn
  · intro n key hn
    rw [hti] at hn
    cases hn
  · intro key hn
    rw [hti] at hn
    cases hn
  · intro key hn
    rw [hderived]
    exact h.initiator.stored key (hingress ▸ hn)
  · refine h.responder.of_step htr (Nat.le_of_eq hto.symm) hle ?_ ?_
    · intro n key hn
      rw [hti] at hn
      cases hn
    · intro n _ hn
      rw [hti] at hn
      cases hn
  · have hpending' : t.ingressPending = s.ingressPending := by
      rw [hpending, ingressPending, hti]
    have hegress' : t.egressPending = s.egressPending := by
      rw [egressPending, egressPending, htr]
    exact h.keys.congr hpending' hegress' hingress hegress

/-- The responder moves on and takes at most the ciphertext off a connection. -/
theorem Agreeing.of_responder (hti : t.initiator = s.initiator) (hto : t.opened = s.opened)
    (hderived : t.derived = s.derived) (hingress : t.ingressKey = s.ingressKey)
    (hle : ∀ n, ConnLe (s.conns (.initiator n)) (t.conns (.initiator n)))
    (hdown : ∀ n, (t.conns (.initiator n)).down = (s.conns (.initiator n)).down)
    (hresponder : ResponderOk H hkdf frodo t) (hkeys : KeysAgree t) : Agreeing H hkdf frodo t := by
  refine ⟨?_, ?_, hresponder, hkeys⟩
  · refine h.wired.of_connLe (Nat.le_of_eq hto.symm) hle ?_
    intro n b key hn _
    exact ⟨key, hti.trans hn⟩
  · refine h.initiator.of_step hti hto hderived hingress (fun n => (hle n).2.2)
      (fun n _ hone => Nat.le_trans (hle n).2.1.length_le hone) ?_
    intro n key hn haccepted hdown'
    rw [(hle n).1, hdown n]
    exact ⟨haccepted, hdown'⟩

/-- The responder moves on with someone else. -/
theorem Agreeing.of_other (hti : t.initiator = s.initiator) (hto : t.opened = s.opened)
    (hderived : t.derived = s.derived) (hingress : t.ingressKey = s.ingressKey)
    (hegress : t.egressKey = s.egressKey)
    (hconns : ∀ n, t.conns (.initiator n) = s.conns (.initiator n))
    (hpending : t.egressPending = s.egressPending)
    (hother : ∀ n, t.responder.conn ≠ some (.initiator n)) : Agreeing H hkdf frodo t := by
  have hip : t.ingressPending = s.ingressPending := by
    refine ingressPending_eq_of_ack hti ?_
    intro n key _
    rw [hconns n]
  refine h.of_responder hti hto hderived hingress ?_ ?_ (responderOk_of_conn hother)
    (h.keys.congr hip hpending hingress hegress)
  · intro n
    rw [hconns n]
    exact .refl _
  · intro n
    rw [hconns n]

theorem Agreeing.connect (hstep : step H hkdf frodo s .connect = some t) :
    Agreeing H hkdf frodo t := by
  obtain ⟨hi, rfl⟩ := step_connect hstep
  have hpending : s.ingressPending = none := by rw [ingressPending, hi]
  refine ⟨?_, ⟨?_, ?_, ?_, h.initiator.stored⟩, ?_, h.keys.congr hpending.symm rfl rfl rfl⟩
  · refine h.wired.of_connLe (Nat.le_succ _) (fun n => ConnLe.refl _) ?_
    intro n b key hn
    rw [hi] at hn
    cases hn
  · intro n hn
    cases hn
    obtain ⟨hdown, hup⟩ := h.wired.fresh _ (h.wired.later _ (Nat.le_refl _))
    refine ⟨Nat.lt_succ_self _, hup, ?_⟩
    simp only [hdown]
    exact Nat.zero_le _
  · intro n key hn
    cases hn
  · intro key hn
    cases hn
  · refine h.responder.of_step rfl (Nat.le_succ _) (fun n => ConnLe.refl _) ?_ ?_
    · intro n key hn
      cases hn
    · intro n hn hpk
      cases hpk
      exact absurd hn (Nat.lt_irrefl _)

theorem Agreeing.acceptOther {m seed : Nat}
    (hstep : step H hkdf frodo s (.accept (.other m) seed) = some t) : Agreeing H hkdf frodo t := by
  obtain ⟨hr, -, ht⟩ := step_accept hstep
  have hmoves : Moves s t (.other m) { s.conns (.other m) with accepted := true } :=
    moves_setConn (by rw [ht])
  refine h.of_other (by subst ht; rfl) (by subst ht; rfl) (by subst ht; rfl) (by subst ht; rfl)
    (by subst ht; rfl) hmoves.initiator ?_ ?_
  · rw [egressPending, egressPending, hr, ht]
  · intro n hn
    rw [ht] at hn
    cases hn

theorem Agreeing.acceptInitiator {n seed : Nat}
    (hstep : step H hkdf frodo s (.accept (.initiator n) seed) = some t) :
    Agreeing H hkdf frodo t := by
  obtain ⟨hr, hwait, ht⟩ := step_accept hstep
  obtain ⟨hn, hnew⟩ := hwait
  obtain ⟨hdown, hup⟩ := h.wired.fresh n hnew
  have hmoves : Moves s t (.initiator n) { s.conns (.initiator n) with accepted := true } :=
    moves_setConn (by rw [ht])
  have hti : t.initiator = s.initiator := by subst ht; rfl
  have htr : t.responder =
      .accepted (.initiator n) (keygen frodo seed).1 (keygen frodo seed).2 := by rw [ht]
  have hto : t.opened = s.opened := by subst ht; rfl
  have hwaiting : ∀ key, s.initiator ≠ .awaitAck n key := by
    intro key hkey
    obtain ⟨-, -, haccepted, -⟩ := h.initiator.awaitAck n key hkey
    rw [hnew] at haccepted
    cases haccepted
  refine ⟨?_, ?_, ⟨?_, ?_, ?_⟩, ?_⟩
  · refine h.wired.of_moves hmoves hn hto rfl ?_ ?_
    · intro b hb
      simp only [hdown] at hb
      cases hb
    · intro m key _ hm
      exact ⟨key, hti.trans hm⟩
  · refine h.initiator.of_step hti hto (by subst ht; rfl) (by subst ht; rfl) ?_ ?_ ?_
    · intro m
      rw [hmoves.field_eq Conn.up rfl]
    · intro m _ hone
      rw [hmoves.field_eq Conn.down rfl]
      exact hone
    · intro m key hm haccepted hdown'
      have hmn : m ≠ n := fun heq => hwaiting key (heq ▸ hm)
      rw [hmoves.other hmn]
      exact ⟨haccepted, hdown'⟩
  · intro n' pk sk hc
    rw [htr] at hc
    cases hc
    refine ⟨seed, hto ▸ hn, ?_, ?_, ?_, fun key => hti ▸ hwaiting key, rfl⟩
    · rw [hmoves.self]
    · rw [hmoves.self]
      exact hdown
    · rw [hmoves.self]
      exact hup
  · intro c sk hc
    rw [htr] at hc
    cases hc
  · intro c key hc
    rw [htr] at hc
    cases hc
  · have hpending : t.egressPending = s.egressPending := by
      rw [egressPending, egressPending, hr, htr]
    refine h.keys.congr (ingressPending_eq_of_ack hti ?_) hpending (by subst ht; rfl)
      (by subst ht; rfl)
    intro m key hm
    have hmn : m ≠ n := fun heq => hwaiting key (heq ▸ hm)
    rw [hmoves.other hmn]

theorem Agreeing.sendPkInitiator {n : Nat} {pk sk : List UInt8}
    (hr : s.responder = .accepted (.initiator n) pk sk)
    (ht : t = { s.setConn (.initiator n) ((s.conns (.initiator n)).sendDown (.frame pk)) with
      responder := .awaitCt (.initiator n) sk }) : Agreeing H hkdf frodo t := by
  obtain ⟨seed, hn, haccepted, hdown, hup, hwait, hkeys⟩ := h.responder.accepted n pk sk hr
  have hmoves : Moves s t (.initiator n) ((s.conns (.initiator n)).sendDown (.frame pk)) :=
    moves_setConn (by rw [ht])
  have hti : t.initiator = s.initiator := by subst ht; rfl
  have htr : t.responder = .awaitCt (.initiator n) sk := by rw [ht]
  have hto : t.opened = s.opened := by subst ht; rfl
  obtain ⟨ha, hu, hd, hlen⟩ := sendDown_frame pk hdown
  refine ⟨?_, ?_, ⟨?_, ?_, ?_⟩, ?_⟩
  · refine h.wired.of_moves hmoves hn hto (ha.trans haccepted) ?_ ?_
    · intro b hb
      cases hd _ hb
    · intro m key _ hm
      exact ⟨key, hti.trans hm⟩
  · refine h.initiator.of_step hti hto (by subst ht; rfl) (by subst ht; rfl) ?_ ?_ ?_
    · intro m
      rw [hmoves.field_eq Conn.up hu]
    · exact fun m _ hone => hmoves.still (P := fun conn => conn.down.length ≤ 1) hlen hone
    · intro m key hm haccepted' hdown'
      have hmn : m ≠ n := fun heq => hwait key (heq ▸ hm)
      rw [hmoves.other hmn]
      exact ⟨haccepted', hdown'⟩
  · intro n' pk' sk' hc
    rw [htr] at hc
    cases hc
  · intro n' sk' hc
    rw [htr] at hc
    cases hc
    refine ⟨seed, hto ▸ hn, ?_, (congrArg Prod.snd hkeys).symm, ?_, ?_⟩
    · rw [hmoves.self]
      exact ha.trans haccepted
    · rw [hmoves.self, hkeys]
      exact hd
    · rw [hmoves.self, hu, hup]
      intro ct hct
      cases hct
  · intro c' key hc
    rw [htr] at hc
    cases hc
  · have hpending : t.egressPending = s.egressPending := by
      rw [egressPending, egressPending, hr, htr]
    refine h.keys.congr (ingressPending_eq_of_ack hti ?_) hpending (by subst ht; rfl)
      (by subst ht; rfl)
    intro m key hm
    have hmn : m ≠ n := fun heq => hwait key (heq ▸ hm)
    rw [hmoves.other hmn]

theorem Agreeing.sendPk (hstep : step H hkdf frodo s .sendPk = some t) :
    Agreeing H hkdf frodo t := by
  obtain ⟨c, pk, sk, hr, ht⟩ := step_sendPk hstep
  cases c with
  | other m =>
      have hmoves : Moves s t (.other m) ((s.conns (.other m)).sendDown (.frame pk)) :=
        moves_setConn (by rw [ht])
      refine h.of_other (by subst ht; rfl) (by subst ht; rfl) (by subst ht; rfl)
        (by subst ht; rfl) (by subst ht; rfl) hmoves.initiator ?_ ?_
      · rw [egressPending, egressPending, hr, ht]
      · intro n hn
        rw [ht] at hn
        cases hn
  | initiator n => exact h.sendPkInitiator hr ht

theorem Agreeing.recvPk {coins : Nat} (hstep : step H hkdf frodo s (.recvPk coins) = some t) :
    Agreeing H hkdf frodo t := by
  obtain ⟨n, pk, rest, hi, hdown, hnext⟩ := step_recvPk hstep
  obtain ⟨hn, hup, hone⟩ := h.initiator.awaitPk n hi
  have hpending : s.ingressPending = none := by rw [ingressPending, hi]
  obtain rfl : rest = [] := by
    rw [hdown, List.length_cons] at hone
    exact List.eq_nil_of_length_eq_zero (Nat.le_zero.mp (Nat.le_of_succ_le_succ hone))
  have haccepted : (s.conns (.initiator n)).accepted = true := by
    by_contra hnot
    have hnil := (h.wired.fresh n (by simpa using hnot)).1
    rw [hdown] at hnil
    cases hnil
  rcases hnext with ⟨ct, key, henc, ht⟩ | ht
  case inr =>
    have hmoves : Moves s t (.initiator n) { s.conns (.initiator n) with down := [] } :=
      moves_setConn (by rw [ht])
    refine h.of_resting (by rw [ht]) (by subst ht; rfl) (by subst ht; rfl) (by subst ht; rfl)
      (by subst ht; rfl) (by subst ht; rfl) ?_ hpending ?_
    · intro m
      apply hmoves.connLe
      exact ⟨rfl, hdown ▸ List.sublist_cons_self _ _, .refl _⟩
    · intro m b key hm
      rw [hi] at hm
      cases hm
  case inl =>
    have hmoves : Moves s t (.initiator n)
        (Conn.sendUp { s.conns (.initiator n) with down := [] } ct) :=
      moves_setConn (by rw [ht])
    have hti : t.initiator = .awaitAck n key := by rw [ht]
    have htr : t.responder = s.responder := by subst ht; rfl
    have hto : t.opened = s.opened := by subst ht; rfl
    have hderived : t.derived = key :: s.derived := by rw [ht]
    have hingress : t.ingressKey = s.ingressKey := by subst ht; rfl
    obtain ⟨ha, hd, hu⟩ := sendUp_emptied ct hup
    refine ⟨?_, ⟨?_, ?_, ?_, ?_⟩, ?_, ?_⟩
    · refine h.wired.of_moves hmoves hn hto (ha.trans haccepted) ?_ ?_
      · intro b hb
        rw [hd] at hb
        cases hb
      · intro m key' _ hm
        rw [hi] at hm
        cases hm
    · intro m hm
      rw [hti] at hm
      cases hm
    · intro m key' hm
      rw [hti] at hm
      cases hm
      rw [hmoves.self, hderived, hto]
      exact ⟨List.mem_cons_self, hn, ha.trans haccepted, Or.inl hd⟩
    · intro key' hm
      rw [hti] at hm
      cases hm
    · intro key' hm
      rw [hderived]
      exact List.mem_cons_of_mem _ (h.initiator.stored key' (hingress ▸ hm))
    · exact h.responder.of_recvPk hi hdown henc hmoves hti htr hto (ha.trans haccepted) hd hu
    · have hnone : t.ingressPending = s.ingressPending := by
        rw [hpending, ingressPending, hti]
        simp only [hmoves.self, hd, List.not_mem_nil, if_false]
      have hegress : t.egressPending = s.egressPending := by
        rw [egressPending, egressPending, htr]
      exact h.keys.congr hnone hegress hingress (by subst ht; rfl)

/-- The key that the responder decapsulates from what the initiator sent is the initiator's. -/
theorem Agreeing.decapsulated (hfrodo : frodo.Correct) {n : Nat} {sk ct : List UInt8}
    {rest : List (List UInt8)} {key : NapqesKey} (hr : s.responder = .awaitCt (.initiator n) sk)
    (hup : (s.conns (.initiator n)).up = ct :: rest)
    (hdec : decapsulateV8 H hkdf frodo ct sk = .ok key)
    (htr : t.responder = .sendAck (.initiator n) key) (hti : t.initiator = s.initiator)
    (hto : t.opened = s.opened) (hle : ConnLe (s.conns (.initiator n)) (t.conns (.initiator n)))
    (hsame : (t.conns (.initiator n)).down = (s.conns (.initiator n)).down) :
    ResponderOk H hkdf frodo t := by
  obtain ⟨seed, hn, haccepted, rfl, hdown, hcts⟩ := h.responder.awaitCt n sk hr
  obtain ⟨coins, key', henc, hkey⟩ := hcts ct (by rw [hup]; exact List.mem_cons_self)
  obtain rfl : key = key' := decapsulateV8_encapsulateV8 hfrodo henc hdec
  refine ⟨?_, ?_, ?_⟩
  · intro m pk sk hc
    rw [htr] at hc
    cases hc
  · intro m sk hc
    rw [htr] at hc
    cases hc
  · intro m key' hc
    rw [htr] at hc
    cases hc
    refine ⟨hto ▸ hn, ?_, ?_, ?_, ?_⟩
    · rw [hle.1, haccepted]
    · rw [hsame]
      exact fun m hm => ⟨_, hdown m hm⟩
    · intro hpk
      have hnil := (h.initiator.awaitPk n (hti ▸ hpk)).2.1
      rw [hup] at hnil
      cases hnil
    · intro key' hkey'
      exact hkey key' (hti ▸ hkey')

theorem Agreeing.recvCt (hfrodo : frodo.Correct) (hstep : step H hkdf frodo s .recvCt = some t) :
    Agreeing H hkdf frodo t := by
  obtain ⟨c, sk, ct, rest, r, hr, hup, ht, hnext⟩ := step_recvCt hstep
  have hmoves : Moves s t c { s.conns c with up := rest } := moves_setConn (by rw [ht])
  have hti : t.initiator = s.initiator := by subst ht; rfl
  have hto : t.opened = s.opened := by subst ht; rfl
  have htr : t.responder = r := by rw [ht]
  have hle : ∀ m, ConnLe (s.conns (.initiator m)) (t.conns (.initiator m)) := by
    intro m
    apply hmoves.connLe
    exact ⟨rfl, .refl _, hup ▸ List.sublist_cons_self _ _⟩
  have hsame : ∀ m, (t.conns (.initiator m)).down = (s.conns (.initiator m)).down :=
    fun m => hmoves.field_eq Conn.down rfl _
  have hip : t.ingressPending = s.ingressPending := by
    refine ingressPending_eq_of_ack hti ?_
    intro m key _
    rw [hsame m]
  have hep : t.egressPending = s.egressPending := by
    rw [egressPending, egressPending, hr, htr]
    rcases hnext with rfl | ⟨key, -, rfl⟩
    · rfl
    · rfl
  refine h.of_responder hti hto (by subst ht; rfl) (by subst ht; rfl) hle hsame ?_
    (h.keys.congr hip hep (by subst ht; rfl) (by subst ht; rfl))
  rcases hnext with rfl | ⟨key, hdec, rfl⟩
  · exact responderOk_of_none (by rw [htr]; rfl)
  · cases c with
    | other m => exact responderOk_of_other (by rw [htr]; rfl)
    | initiator n => exact h.decapsulated hfrodo hr hup hdec htr hti hto (hle n) (hsame n)

theorem Agreeing.sendAck (hstep : step H hkdf frodo s .sendAck = some t)
    (hcond : Undisturbed s .sendAck) : Agreeing H hkdf frodo t := by
  obtain ⟨c, key, hr, ht⟩ := step_sendAck hstep
  obtain ⟨n, key', rfl, hi, hcut⟩ := hcond c key hr
  obtain ⟨hn, haccepted, hdown, -, hkey⟩ := h.responder.sendAck n key hr
  obtain rfl : key' = key := hkey key' hi
  obtain ⟨hderived, -, -, hshape⟩ := h.initiator.awaitAck n key' hi
  have hnil : (s.conns (.initiator n)).down = [] := by
    rcases hshape with hnil | hone
    · exact hnil
    · obtain ⟨pk, hpk⟩ := hdown (.byte ack) (by rw [hone]; exact List.mem_cons_self)
      cases hpk
  have hmoves : Moves s t (.initiator n) { s.conns (.initiator n) with down := [.byte ack] } := by
    refine moves_setConn ?_
    rw [ht, Conn.sendDown, if_neg (by simp [hcut]), hnil]
    rfl
  have hti : t.initiator = s.initiator := by subst ht; rfl
  have htr : t.responder = .install key' := by rw [ht]
  have hto : t.opened = s.opened := by subst ht; rfl
  have hold : s.ingressKey = s.egressKey := by
    have hip : s.ingressPending = none := by
      rw [ingressPending, hi]
      simp only [hnil, List.not_mem_nil, if_false]
    have hep : s.egressPending = none := by rw [egressPending, hr]
    have hfinal := h.keys.final
    rw [hip, hep] at hfinal
    exact hfinal
  have hip : t.ingressPending = some key' := by
    rw [ingressPending, hti, hi]
    simp only [hmoves.self, List.mem_singleton, if_true]
  have hep : t.egressPending = some key' := by rw [egressPending, htr]
  refine ⟨?_, ?_, responderOk_of_none (by rw [htr]; rfl), ?_, ?_⟩
  · refine h.wired.of_moves hmoves hn hto haccepted ?_ ?_
    · intro b hb
      simp only [List.mem_singleton, Down.byte.injEq] at hb
      exact ⟨hb, key', hti.trans hi⟩
    · intro m key _ hm
      exact ⟨key, hti.trans hm⟩
  · refine h.initiator.of_step hti hto (by subst ht; rfl) (by subst ht; rfl) ?_ ?_ ?_
    · intro m
      rw [hmoves.field_eq Conn.up rfl]
    · intro m hm
      rw [hi] at hm
      cases hm
    · intro m key hm _ _
      rw [hi] at hm
      cases hm
      rw [hmoves.self]
      exact ⟨haccepted, Or.inr rfl⟩
  · rw [hip, hep]
    rfl
  · intro _ _
    subst ht
    exact hold

theorem Agreeing.recvAck (hstep : step H hkdf frodo s .recvAck = some t) :
    Agreeing H hkdf frodo t := by
  obtain ⟨n, key, b, rest, hi, hdown, ht⟩ := step_recvAck hstep
  obtain ⟨hderived, hn, haccepted, hshape⟩ := h.initiator.awaitAck n key hi
  obtain ⟨rfl, rfl⟩ : b = ack ∧ rest = [] := by
    rw [hdown] at hshape
    rcases hshape with hnil | hone
    · cases hnil
    · cases hone
      exact ⟨rfl, rfl⟩
  have hmoves : Moves s t (.initiator n) { s.conns (.initiator n) with down := [] } :=
    moves_setConn (by rw [ht])
  have hti : t.initiator = .install key := by
    rw [ht]
    show (if ack ≠ ack then Initiator.resting else .install key) = _
    exact if_neg (not_not.mpr rfl)
  have htr : t.responder = s.responder := by subst ht; rfl
  have hto : t.opened = s.opened := by subst ht; rfl
  have hle : ∀ m, ConnLe (s.conns (.initiator m)) (t.conns (.initiator m)) := by
    intro m
    apply hmoves.connLe
    exact ⟨rfl, List.nil_sublist _, .refl _⟩
  have hip : t.ingressPending = s.ingressPending := by
    rw [ingressPending, ingressPending, hti, hi]
    simp only [hdown, List.mem_cons_self, if_true]
  have hep : t.egressPending = s.egressPending := by rw [egressPending, egressPending, htr]
  refine ⟨?_, ⟨?_, ?_, ?_, ?_⟩, ?_,
    h.keys.congr hip hep (by subst ht; rfl) (by subst ht; rfl)⟩
  · refine h.wired.of_connLe (Nat.le_of_eq hto.symm) hle ?_
    intro m b key' hm hb
    rw [hi] at hm
    cases hm
    rw [hmoves.self] at hb
    cases hb
  · intro m hm
    rw [hti] at hm
    cases hm
  · intro m key' hm
    rw [hti] at hm
    cases hm
  · intro key' hm
    rw [hti] at hm
    cases hm
    subst ht
    exact hderived
  · intro key' hm
    subst ht
    exact h.initiator.stored key' hm
  · refine h.responder.of_step htr (Nat.le_of_eq hto.symm) hle ?_ ?_
    · intro m key' hm
      rw [hti] at hm
      cases hm
    · intro m _ hm
      rw [hti] at hm
      cases hm

theorem Agreeing.insertEgress (hstep : step H hkdf frodo s .insertEgress = some t) :
    Agreeing H hkdf frodo t := by
  obtain ⟨key, hr, rfl⟩ := step_insertEgress hstep
  have hep : s.egressPending = some key := by rw [egressPending, hr]
  refine h.of_responder rfl rfl rfl rfl (fun n => ConnLe.refl _) (fun n => rfl)
    (responderOk_of_none rfl) ⟨?_, fun _ hne => absurd rfl hne⟩
  have hfinal := h.keys.final
  rw [hep] at hfinal
  rw [egressKey_insert]
  exact hfinal

theorem Agreeing.insertIngress (hstep : step H hkdf frodo s .insertIngress = some t) :
    Agreeing H hkdf frodo t := by
  obtain ⟨key, hi, rfl⟩ := step_insertIngress hstep
  have hip : s.ingressPending = some key := by rw [ingressPending, hi]
  refine ⟨?_, ⟨?_, ?_, ?_, ?_⟩, ?_, ?_, fun hne => absurd rfl hne⟩
  · refine h.wired.of_connLe (Nat.le_refl _) (fun n => ConnLe.refl _) ?_
    intro n b key' hn
    rw [hi] at hn
    cases hn
  · intro n hn
    cases hn
  · intro n key' hn
    cases hn
  · intro key' hn
    cases hn
  · intro key' hn
    rw [ingressKey_insert] at hn
    cases hn
    exact h.initiator.install key hi
  · refine h.responder.of_step rfl (Nat.le_refl _) (fun n => ConnLe.refl _) ?_ ?_
    · intro n key' hn
      cases hn
    · intro n _ hn
      cases hn
  · have hfinal := h.keys.final
    rw [hip] at hfinal
    rw [ingressKey_insert]
    exact hfinal

theorem Agreeing.failResponder (hstep : step H hkdf frodo s .failResponder = some t) :
    Agreeing H hkdf frodo t := by
  obtain ⟨hne, rfl⟩ := step_failResponder hstep
  refine h.of_responder rfl rfl rfl rfl (fun n => ConnLe.refl _) (fun n => rfl)
    (responderOk_of_none rfl) (h.keys.congr rfl (egressPending_of_ne hne).symm rfl rfl)

theorem Agreeing.failInitiator (hstep : step H hkdf frodo s .failInitiator = some t)
    (hcond : Undisturbed s .failInitiator) : Agreeing H hkdf frodo t := by
  obtain ⟨hne, rfl⟩ := step_failInitiator hstep
  refine h.of_resting rfl rfl rfl rfl rfl rfl (fun n => ConnLe.refl _) ?_ ?_
  · unfold ingressPending
    split
    case h_1 n key hi => exact if_neg (hcond n key hi)
    case h_2 key hi => exact absurd hi (hne key)
    case h_3 => rfl
  · intro n b key hi hb
    obtain ⟨rfl, -⟩ := h.wired.acks n b hb
    exact hcond n key hi hb

theorem Agreeing.sendOther {n : Nat} {frame : List UInt8}
    (hstep : step H hkdf frodo s (.sendOther n frame) = some t) : Agreeing H hkdf frodo t := by
  have ht := step_sendOther hstep
  have hmoves : Moves s t (.other n) ((s.conns (.other n)).sendUp frame) :=
    moves_setConn (by rw [ht])
  refine h.of_network (by subst ht; rfl) (by subst ht; rfl) (by subst ht; rfl) (by subst ht; rfl)
    (by subst ht; rfl) (by subst ht; rfl) ?_ ?_
  · intro m
    rw [hmoves.initiator m]
    exact .refl _
  · intro m key _
    rw [hmoves.initiator m]

theorem Agreeing.cut {c : ConnId} {down up : Nat}
    (hstep : step H hkdf frodo s (.cut c down up) = some t)
    (hcond : Undisturbed s (.cut c down up)) : Agreeing H hkdf frodo t := by
  have ht := step_cut hstep
  have hmoves : Moves s t c { s.conns c with
      isCut := true, down := (s.conns c).down.take down, up := (s.conns c).up.take up } :=
    moves_setConn (by rw [ht])
  refine h.of_network (by subst ht; rfl) (by subst ht; rfl) (by subst ht; rfl) (by subst ht; rfl)
    (by subst ht; rfl) (by subst ht; rfl) ?_ ?_
  · intro m
    apply hmoves.connLe
    exact ⟨rfl, List.take_sublist _ _, List.take_sublist _ _⟩
  · intro m key hm
    by_cases hmc : .initiator m = c
    · -- The ACK is not on it, so nothing is.
      subst hmc
      obtain ⟨-, -, -, hshape⟩ := h.initiator.awaitAck m key hm
      have hnil : (s.conns (.initiator m)).down = [] := by
        rcases hshape with hnil | hone
        · exact hnil
        · rw [Undisturbed, hone] at hcond
          exact absurd List.mem_cons_self hcond
      rw [hmoves.self, hnil]
      exact List.take_nil
    · rw [hmoves, if_neg hmc]

/-- One step of an undisturbed run keeps the invariant. -/
theorem Agreeing.step (hfrodo : frodo.Correct) {a : ExchangeAction}
    (hstep : Exchange.step H hkdf frodo s a = some t) (hcond : Undisturbed s a) :
    Agreeing H hkdf frodo t := by
  cases a with
  | connect => exact h.connect hstep
  | accept c seed =>
      cases c with
      | initiator n => exact h.acceptInitiator hstep
      | other m => exact h.acceptOther hstep
  | sendPk => exact h.sendPk hstep
  | recvPk coins => exact h.recvPk hstep
  | sendOther n frame => exact h.sendOther hstep
  | recvCt => exact h.recvCt hfrodo hstep
  | sendAck => exact h.sendAck hstep hcond
  | recvAck => exact h.recvAck hstep
  | insertEgress => exact h.insertEgress hstep
  | insertIngress => exact h.insertIngress hstep
  | failResponder => exact h.failResponder hstep
  | failInitiator => exact h.failInitiator hstep hcond
  | cut c down up => exact h.cut hstep hcond

end

/-- The invariant holds in every state that an undisturbed run reaches. -/
theorem Agreeing.run (hfrodo : frodo.Correct)
    (hrun : Runs H hkdf frodo Undisturbed Exchange.init s) :
    Agreeing H hkdf frodo s := by
  refine Run.invariant ?_ hrun (.init H hkdf frodo)
  intro s a t hstep hcond hs
  exact hs.step hfrodo hstep hcond

end Exchange

end Napqes.Rust
