import Napqes.Rust.Proofs.Egress
import Napqes.Rust.Proofs.Ingress
import Napqes.Rust.Proofs.KemAgreement
import Napqes.Rust.Rekeying

/-!
# Re-keying and the envelopes in flight

`handle_egress` opens an envelope with the key the egress holds when it arrives. Around each
insert there are three windows in which that is not the key it was sealed with. Outside of them
(`Timely`) every envelope is accepted.
-/

namespace Napqes.Rust

variable {H : Hmac} {hkdf : Hkdf} {frodo : Frodo}

/-! ## Rounds of the handlers -/

section
variable {ε : Type} {protocol : ProtocolId} {extract : List UInt8 → RustM ε (UInt64 × List UInt8)}
  {keyStore : KeyStore} {frame : List UInt8} {counters counters' : SequenceCounter}

/-- A round gives out at most one number. -/
theorem ingressRound_counters {out : Option SealedPdu}
    (h : ingressRound H protocol extract keyStore frame counters = .ok (out, counters')) :
    counters' = counters ∨
      ∃ deviceId seq, counters.nextSeq protocol deviceId = .ok (seq, counters') := by
  unfold ingressRound at h
  split at h
  case h_1 => cases h
  case h_2 =>
    cases h
    exact Or.inl rfl
  case h_3 deviceId pdu hextract =>
    obtain ⟨⟨seq, c⟩, hseq, h⟩ := bind_eq_ok.mp h
    right
    refine ⟨deviceId, seq, ?_⟩
    rw [hseq]
    simp only at h
    split at h
    case h_1 =>
      cases h
      rfl
    case h_2 key hkey =>
      split at h
      case h_1 => cases h
      case h_2 =>
        cases h
        rfl
      case h_3 envelope hwrap =>
        cases h
        rfl

end

theorem lastSent_le_of_ingressFrame {protocol : ProtocolId} {keyStore : KeyStore}
    {frame : List UInt8} {counters counters' : SequenceCounter} {out : Option SealedPdu}
    (h : ingressFrame H protocol keyStore frame counters = .ok (out, counters'))
    (device : DeviceKey) : counters.lastSent device ≤ counters'.lastSent device := by
  have hcounters : counters' = counters ∨
      ∃ deviceId seq, counters.nextSeq protocol deviceId = .ok (seq, counters') := by
    cases protocol with
    | modbusTcp => exact ingressRound_counters h
    | dnp3 => exact ingressRound_counters h
  rcases hcounters with rfl | ⟨deviceId, seq, hseq⟩
  · exact UInt64.le_refl _
  · exact lastSent_le_of_nextSeq hseq device

/-- What the handler has done when it seals. -/
theorem ingressFrame_eq_some {protocol : ProtocolId} {keyStore : KeyStore} {frame : List UInt8}
    {counters counters' : SequenceCounter} {s : SealedPdu}
    (h : ingressFrame H protocol keyStore frame counters = .ok (some s, counters')) :
    s.aad.seq = counters'.lastSent s.aad.device ∧
      counters.lastSent s.aad.device < counters'.lastSent s.aad.device ∧
      ∃ key, keyStore s.aad.deviceId = .ok key ∧ wrapPdu H s.pdu s.aad key = .ok s.envelope := by
  have hround : s.aad.protocol = protocol ∧
      counters.nextSeq protocol s.aad.deviceId = .ok (s.aad.seq, counters') ∧
      ∃ key, keyStore s.aad.deviceId = .ok key ∧
        wrapPdu H s.pdu s.aad key = .ok s.envelope := by
    cases protocol with
    | modbusTcp => exact (ingressRound_eq_some h).2
    | dnp3 => exact (ingressRound_eq_some h).2
  obtain ⟨rfl, hseq, hkey⟩ := hround
  have hnat := lastSent_of_nextSeq hseq s.aad.deviceId
  rw [if_pos rfl] at hnat
  obtain ⟨-, hval, rfl⟩ := nextSeq_eq_ok_iff.mp hseq
  refine ⟨?_, ?_, hkey⟩
  · rw [hval]
    unfold SequenceCounter.lastSent
    simp only [OtAad.device, Function.update_self, Option.getD_some]
  · rw [UInt64.lt_iff_toNat_lt]
    exact Nat.lt_of_lt_of_eq (Nat.lt_succ_self _) hnat.symm

/-- A genuine envelope with a new number is accepted when the store answers with its key. -/
theorem egressRound_envelope (w : HonestWrap H) {keyStore : KeyStore}
    {counters : SequenceCounter} (hkey : keyStore w.aad.deviceId = .ok w.key)
    (hseq : counters.lastSeen w.aad.device < w.aad.seq) :
    ∃ counters', egressRound H keyStore w.envelope counters = (some w.pdu, counters') ∧
      counters'.lastSeen = Function.update counters.lastSeen w.aad.device w.aad.seq := by
  obtain ⟨counters', hunwrap, hlast⟩ :=
    w.unwrapPdu_envelope (hmacVerify_self H _ _) hseq []
  rw [List.append_nil] at hunwrap
  refine ⟨counters', ?_, hlast⟩
  rw [egressRound, w.peekDeviceId_envelope]
  simp only [hkey, hunwrap]

/-! ## The stores -/

/-- The exchange inserts nothing but wildcard keys. -/
def SessionKeyStore.WildcardOnly (store : SessionKeyStore) : Prop :=
  ∀ d, d ≠ wildcardDeviceId → store.inner d = none

theorem SessionKeyStore.WildcardOnly.insert {store : SessionKeyStore} (h : store.WildcardOnly)
    (key : NapqesKey) : (store.insert wildcardDeviceId key).WildcardOnly := by
  intro d hd
  rw [SessionKeyStore.insert]
  simp only [Function.update_of_ne hd]
  exact h d hd

/-- Every device has the wildcard key. -/
theorem SessionKeyStore.WildcardOnly.load_eq_ok {store : SessionKeyStore} (h : store.WildcardOnly)
    {d : UInt64} {key : NapqesKey} :
    store.load d = .ok key ↔ store.inner wildcardDeviceId = some key := by
  unfold SessionKeyStore.load
  by_cases hd : d = wildcardDeviceId
  · subst hd
    split
    case h_1 k hk => rw [hk, Except.ok.injEq, Option.some.injEq]
    case h_2 hk => simp [hk]
  · rw [h d hd]
    simp only
    split
    case h_1 k hk => rw [hk, Except.ok.injEq, Option.some.injEq]
    case h_2 hk => simp [hk]

namespace Exchange

variable {s t : Exchange} {a : ExchangeAction}

/-- The egress gets a key, or one to insert, in two steps only. -/
theorem egress_unchanged (h : step H hkdf frodo s a = some t) (hack : a ≠ .sendAck)
    (hinsert : a ≠ .insertEgress) :
    t.egressPending = s.egressPending ∧ t.egressKey = s.egressKey := by
  cases a with
  | connect =>
      obtain ⟨-, rfl⟩ := step_connect h
      exact ⟨rfl, rfl⟩
  | accept c seed =>
      obtain ⟨hr, -, rfl⟩ := step_accept h
      exact ⟨by rw [egressPending, egressPending, hr], rfl⟩
  | sendPk =>
      obtain ⟨c, pk, sk, hr, rfl⟩ := step_sendPk h
      exact ⟨by rw [egressPending, egressPending, hr], rfl⟩
  | recvPk coins =>
      obtain ⟨n, pk, rest, -, -, ⟨ct, key, -, rfl⟩ | rfl⟩ := step_recvPk h
      · exact ⟨rfl, rfl⟩
      · exact ⟨rfl, rfl⟩
  | sendOther n frame =>
      obtain rfl := step_sendOther h
      exact ⟨rfl, rfl⟩
  | recvCt =>
      obtain ⟨c, sk, ct, rest, r, hr, -, rfl, hnext⟩ := step_recvCt h
      refine ⟨?_, rfl⟩
      rw [egressPending, egressPending, hr]
      rcases hnext with rfl | ⟨key, -, rfl⟩
      · rfl
      · rfl
  | sendAck => exact absurd rfl hack
  | recvAck =>
      obtain ⟨n, key, b, rest, -, -, rfl⟩ := step_recvAck h
      exact ⟨rfl, rfl⟩
  | insertEgress => exact absurd rfl hinsert
  | insertIngress =>
      obtain ⟨key, -, rfl⟩ := step_insertIngress h
      exact ⟨rfl, rfl⟩
  | failResponder =>
      obtain ⟨hne, rfl⟩ := step_failResponder h
      exact ⟨(egressPending_of_ne hne).symm, rfl⟩
  | failInitiator =>
      obtain ⟨-, rfl⟩ := step_failInitiator h
      exact ⟨rfl, rfl⟩
  | cut c down up =>
      obtain rfl := step_cut h
      exact ⟨rfl, rfl⟩

/-- Unless the egress has inserted a key that the ingress still has to insert, the egress has the
key of the ingress or is about to insert it. -/
theorem KeysAgree.ingressKey_held (h : KeysAgree s)
    (hwindow : s.ingressPending = none ∨ s.egressPending ≠ none) :
    s.ingressKey = s.egressKey ∨ s.ingressKey = s.egressPending := by
  by_cases hnone : s.ingressPending = none
  · have hfinal := h.final
    rw [hnone, Option.none_or] at hfinal
    rw [hfinal]
    cases s.egressPending with
    | none => exact Or.inl rfl
    | some key => exact Or.inr rfl
  · rcases hwindow with heq | hpending
    · exact absurd heq hnone
    · exact Or.inl (h.both hnone hpending)

/-- A store changes by an insert of a wildcard key only. -/
theorem stores_step (h : step H hkdf frodo s a = some t) :
    (t.ingress = s.ingress ∨ ∃ key, t.ingress = s.ingress.insert wildcardDeviceId key) ∧
      (t.egress = s.egress ∨ ∃ key, t.egress = s.egress.insert wildcardDeviceId key) := by
  cases a with
  | connect =>
      obtain ⟨-, rfl⟩ := step_connect h
      exact ⟨Or.inl rfl, Or.inl rfl⟩
  | accept c seed =>
      obtain ⟨-, -, rfl⟩ := step_accept h
      exact ⟨Or.inl rfl, Or.inl rfl⟩
  | sendPk =>
      obtain ⟨c, pk, sk, -, rfl⟩ := step_sendPk h
      exact ⟨Or.inl rfl, Or.inl rfl⟩
  | recvPk coins =>
      obtain ⟨n, pk, rest, -, -, ⟨ct, key, -, rfl⟩ | rfl⟩ := step_recvPk h
      · exact ⟨Or.inl rfl, Or.inl rfl⟩
      · exact ⟨Or.inl rfl, Or.inl rfl⟩
  | sendOther n frame =>
      obtain rfl := step_sendOther h
      exact ⟨Or.inl rfl, Or.inl rfl⟩
  | recvCt =>
      obtain ⟨c, sk, ct, rest, r, -, -, rfl, -⟩ := step_recvCt h
      exact ⟨Or.inl rfl, Or.inl rfl⟩
  | sendAck =>
      obtain ⟨c, key, -, rfl⟩ := step_sendAck h
      exact ⟨Or.inl rfl, Or.inl rfl⟩
  | recvAck =>
      obtain ⟨n, key, b, rest, -, -, rfl⟩ := step_recvAck h
      exact ⟨Or.inl rfl, Or.inl rfl⟩
  | insertEgress =>
      obtain ⟨key, -, rfl⟩ := step_insertEgress h
      exact ⟨Or.inl rfl, Or.inr ⟨key, rfl⟩⟩
  | insertIngress =>
      obtain ⟨key, -, rfl⟩ := step_insertIngress h
      exact ⟨Or.inr ⟨key, rfl⟩, Or.inl rfl⟩
  | failResponder =>
      obtain ⟨-, rfl⟩ := step_failResponder h
      exact ⟨Or.inl rfl, Or.inl rfl⟩
  | failInitiator =>
      obtain ⟨-, rfl⟩ := step_failInitiator h
      exact ⟨Or.inl rfl, Or.inl rfl⟩
  | cut c down up =>
      obtain rfl := step_cut h
      exact ⟨Or.inl rfl, Or.inl rfl⟩

end Exchange

namespace Rekeying

variable {s t : Rekeying}

/-! ## The invariant -/

/-- Nothing of the exchange is lost and nobody else connects. -/
def Lossless : RekeyingAction → Prop
  | .exchange a => Exchange.Lossless a
  | _ => True

/-- The egress inserts a key when every envelope on the link was sealed with it; the ingress seals
nothing while it still has to insert a key that the egress has inserted; and no envelope arrives
while the egress still has to insert its key. -/
def Timely (s : Rekeying) : RekeyingAction → Prop
  | .exchange .insertEgress => ∀ e ∈ s.link, e.key = s.exchange.egressPending
  | .exchange _ => True
  | .ingress .. => s.exchange.ingressPending = none ∨ s.exchange.egressPending ≠ none
  | .egress i => ∀ e, s.link[i]? = some e → e.key ≠ s.exchange.egressPending

/-- The envelopes on the link are genuine, and the egress has their key or is about to insert
it. -/
structure Openable (H : Hmac) (s : Rekeying) : Prop where
  sealed : ∀ e ∈ s.link, ∃ key, e.key = some key ∧
    wrapPdu H e.frame.pdu e.frame.aad key = .ok e.frame.envelope
  keys : ∀ e ∈ s.link, e.key = s.exchange.egressKey ∨ e.key = s.exchange.egressPending

/-- The numbers on the link: above what the egress has seen, growing, and given out. -/
structure Numbered (s : Rekeying) : Prop where
  fresh : ∀ e ∈ s.link, s.egressCounters.lastSeen e.frame.aad.device < e.frame.aad.seq
  ordered : s.link.Pairwise fun e e' => e.frame.aad.device = e'.frame.aad.device →
    e.frame.aad.seq < e'.frame.aad.seq
  sent : ∀ e ∈ s.link, e.frame.aad.seq ≤ s.ingressCounters.lastSent e.frame.aad.device
  seen : ∀ device, s.egressCounters.lastSeen device ≤ s.ingressCounters.lastSent device

/-- The invariant of timely runs. -/
structure Flowing (H : Hmac) (hkdf : Hkdf) (frodo : Frodo) (s : Rekeying) : Prop where
  agreeing : Exchange.Agreeing H hkdf frodo s.exchange
  live : Exchange.Live s.exchange
  ingress : s.exchange.ingress.WildcardOnly
  egress : s.exchange.egress.WildcardOnly
  openable : Openable H s
  numbered : Numbered s
  accepted : Accepted s

theorem Flowing.init (H : Hmac) (hkdf : Hkdf) (frodo : Frodo) : Flowing H hkdf frodo init where
  agreeing := .init H hkdf frodo
  live := .init
  ingress _ _ := rfl
  egress _ _ := rfl
  openable := ⟨fun _ he => absurd he List.not_mem_nil, fun _ he => absurd he List.not_mem_nil⟩
  numbered := ⟨fun _ he => absurd he List.not_mem_nil, .nil,
    fun _ he => absurd he List.not_mem_nil, fun _ => UInt64.le_refl _⟩
  accepted _ hd := absurd hd List.not_mem_nil

theorem next_eq_some {i : Nat} {e : InFlight} (h : s.next i = some e) :
    s.link[i]? = some e ∧
      ∀ e' ∈ s.link.take i, e'.frame.aad.device ≠ e.frame.aad.device := by
  unfold next at h
  split at h
  case h_1 e' hget =>
    split at h
    case isTrue hfirst =>
      cases h
      exact ⟨hget, hfirst⟩
    case isFalse => cases h
  case h_2 => cases h

/-- What is left of a device after its first envelope has higher numbers. -/
theorem lt_of_mem_eraseIdx {link : List InFlight} {i : Nat} {e f : InFlight}
    (hordered : link.Pairwise fun e e' => e.frame.aad.device = e'.frame.aad.device →
      e.frame.aad.seq < e'.frame.aad.seq)
    (hget : link[i]? = some e)
    (hfirst : ∀ e' ∈ link.take i, e'.frame.aad.device ≠ e.frame.aad.device)
    (hf : f ∈ link.eraseIdx i) (hdevice : f.frame.aad.device = e.frame.aad.device) :
    e.frame.aad.seq < f.frame.aad.seq := by
  rw [List.eraseIdx_eq_take_drop_succ] at hf
  rcases List.mem_append.mp hf with hbefore | hafter
  · exact absurd hdevice (hfirst f hbefore)
  · have hdrop : link.drop i = e :: link.drop (i + 1) := by
      obtain ⟨hi, rfl⟩ := List.getElem?_eq_some_iff.mp hget
      exact List.drop_eq_getElem_cons hi
    have htail := hordered.sublist (List.drop_sublist i link)
    rw [hdrop, List.pairwise_cons] at htail
    exact htail.1 f hafter hdevice.symm

section
variable (h : Flowing H hkdf frodo s)
include h

theorem Flowing.exchange (hfrodo : frodo.Correct) {a : ExchangeAction}
    (hstep : step H hkdf frodo s (.exchange a) = some t) (hlossless : Exchange.Lossless a)
    (htimely : Timely s (.exchange a)) : Flowing H hkdf frodo t := by
  obtain ⟨e, hnext, rfl⟩ := Option.map_eq_some_iff.mp hstep
  have hundisturbed := h.live.undisturbed hlossless
  obtain ⟨hin, heg⟩ := Exchange.stores_step hnext
  refine ⟨h.agreeing.step hfrodo hnext hundisturbed, h.live.step h.agreeing hnext hlossless,
    ?_, ?_, ⟨h.openable.sealed, ?_⟩, ⟨h.numbered.fresh, h.numbered.ordered, h.numbered.sent,
      h.numbered.seen⟩, h.accepted⟩
  · rcases hin with heq | ⟨key, heq⟩
    · exact heq ▸ h.ingress
    · exact heq ▸ h.ingress.insert key
  · rcases heg with heq | ⟨key, heq⟩
    · exact heq ▸ h.egress
    · exact heq ▸ h.egress.insert key
  · intro f hf
    by_cases hack : a = .sendAck
    · -- The egress keeps its key, and nothing was pending.
      subst hack
      obtain ⟨c, key, hr, rfl⟩ := Exchange.step_sendAck hnext
      rcases h.openable.keys f hf with hkey | hkey
      · exact Or.inl hkey
      · obtain ⟨key', hsome, -⟩ := h.openable.sealed f hf
        rw [hkey, Exchange.egressPending, hr] at hsome
        cases hsome
    · by_cases hinsert : a = .insertEgress
      · subst hinsert
        obtain ⟨key, hr, rfl⟩ := Exchange.step_insertEgress hnext
        left
        rw [htimely f hf, Exchange.egressPending, hr]
        exact (Exchange.egressKey_insert ..).symm
      · obtain ⟨hpending, hkey⟩ := Exchange.egress_unchanged hnext hack hinsert
        show f.key = e.egressKey ∨ f.key = e.egressPending
        rw [hpending, hkey]
        exact h.openable.keys f hf

/-- The ingress gives out numbers and seals nothing. -/
theorem Flowing.of_counters {counters : SequenceCounter}
    (hle : ∀ device, s.ingressCounters.lastSent device ≤ counters.lastSent device) :
    Flowing H hkdf frodo { s with ingressCounters := counters } where
  agreeing := h.agreeing
  live := h.live
  ingress := h.ingress
  egress := h.egress
  openable := ⟨h.openable.sealed, h.openable.keys⟩
  numbered := ⟨h.numbered.fresh, h.numbered.ordered,
    fun e he => UInt64.le_trans (h.numbered.sent e he) (hle _),
    fun device => UInt64.le_trans (h.numbered.seen device) (hle device)⟩
  accepted := h.accepted

/-- A new envelope on the link. -/
theorem Flowing.of_sealed {e : InFlight} {key : NapqesKey} (hkey : e.key = some key)
    (hwrap : wrapPdu H e.frame.pdu e.frame.aad key = .ok e.frame.envelope)
    (hegress : e.key = s.exchange.egressKey ∨ e.key = s.exchange.egressPending)
    {counters : SequenceCounter}
    (hle : ∀ device, s.ingressCounters.lastSent device ≤ counters.lastSent device)
    (hseq : e.frame.aad.seq = counters.lastSent e.frame.aad.device)
    (hlt : s.ingressCounters.lastSent e.frame.aad.device <
      counters.lastSent e.frame.aad.device) :
    Flowing H hkdf frodo { s with ingressCounters := counters, link := s.link ++ [e] } := by
  have hcounters := h.of_counters hle
  refine ⟨h.agreeing, h.live, h.ingress, h.egress, ⟨?_, ?_⟩, ⟨?_, ?_, ?_, hcounters.numbered.seen⟩,
    h.accepted⟩
  · intro f hf
    rcases List.mem_append.mp hf with hold | hnew
    · exact h.openable.sealed f hold
    · obtain rfl := List.mem_singleton.mp hnew
      exact ⟨key, hkey, hwrap⟩
  · intro f hf
    rcases List.mem_append.mp hf with hold | hnew
    · exact h.openable.keys f hold
    · obtain rfl := List.mem_singleton.mp hnew
      exact hegress
  · intro f hf
    rcases List.mem_append.mp hf with hold | hnew
    · exact h.numbered.fresh f hold
    · obtain rfl := List.mem_singleton.mp hnew
      rw [hseq]
      exact UInt64.lt_of_le_of_lt (h.numbered.seen _) hlt
  · rw [List.pairwise_append]
    refine ⟨h.numbered.ordered, List.pairwise_singleton .., ?_⟩
    intro f hf f' hf' hdevice
    obtain rfl := List.mem_singleton.mp hf'
    rw [hseq, ← hdevice]
    rw [← hdevice] at hlt
    exact UInt64.lt_of_le_of_lt (h.numbered.sent f hf) hlt
  · intro f hf
    rcases List.mem_append.mp hf with hold | hnew
    · exact hcounters.numbered.sent f hold
    · obtain rfl := List.mem_singleton.mp hnew
      rw [hseq]
      exact UInt64.le_refl _

theorem Flowing.ingressFrame {protocol : ProtocolId} {frame : List UInt8}
    (hstep : step H hkdf frodo s (.ingress protocol frame) = some t)
    (htimely : Timely s (.ingress protocol frame)) : Flowing H hkdf frodo t := by
  rw [step] at hstep
  simp only at hstep
  split at hstep
  case h_1 => cases hstep
  case h_2 counters hround =>
    cases hstep
    exact h.of_counters (lastSent_le_of_ingressFrame hround)
  case h_3 sealed counters hround =>
    cases hstep
    obtain ⟨hseq, hlt, key, hload, hwrap⟩ := ingressFrame_eq_some hround
    have hkey : s.exchange.ingressKey = some key := h.ingress.load_eq_ok.mp hload
    have hsome : (s.exchange.ingress.load sealed.aad.deviceId).toOption = some key := by
      rw [hload]
      rfl
    refine h.of_sealed hsome hwrap ?_ (lastSent_le_of_ingressFrame hround) hseq hlt
    rw [hsome, ← hkey]
    exact h.agreeing.keys.ingressKey_held htimely

/-- The envelope is the first of its device. -/
theorem Flowing.egressEnvelope {i : Nat} (hstep : step H hkdf frodo s (.egress i) = some t)
    (htimely : Timely s (.egress i)) : Flowing H hkdf frodo t := by
  rw [step] at hstep
  split at hstep
  case h_1 => cases hstep
  case h_2 e hnext =>
    obtain ⟨hget, hfirst⟩ := next_eq_some hnext
    have hmem : e ∈ s.link := List.mem_of_getElem? hget
    obtain ⟨key, hkey, hwrap⟩ := h.openable.sealed e hmem
    have hheld : s.exchange.egressKey = some key := by
      rcases h.openable.keys e hmem with heq | heq
      · rw [← heq, hkey]
      · exact absurd heq (htimely e hget)
    let w : HonestWrap H := ⟨key, e.frame.aad, e.frame.pdu, e.frame.envelope, hwrap⟩
    obtain ⟨counters, hround, hlast⟩ := egressRound_envelope w (h.egress.load_eq_ok.mpr hheld)
      (h.numbered.fresh e hmem)
    rw [show egressRound H s.exchange.egress.load e.frame.envelope s.egressCounters =
      (some e.frame.pdu, counters) from hround] at hstep
    cases hstep
    replace hlast : counters.lastSeen = Function.update s.egressCounters.lastSeen
        e.frame.aad.device e.frame.aad.seq := hlast
    have hsub : (s.link.eraseIdx i).Sublist s.link := List.eraseIdx_sublist ..
    refine ⟨h.agreeing, h.live, h.ingress, h.egress,
      ⟨fun f hf => h.openable.sealed f (hsub.subset hf),
        fun f hf => h.openable.keys f (hsub.subset hf)⟩,
      ⟨?_, h.numbered.ordered.sublist hsub, fun f hf => h.numbered.sent f (hsub.subset hf), ?_⟩,
      ?_⟩
    · intro f hf
      show counters.lastSeen f.frame.aad.device < f.frame.aad.seq
      rw [hlast]
      by_cases hdevice : f.frame.aad.device = e.frame.aad.device
      · rw [hdevice]
        rw [Function.update_self]
        exact lt_of_mem_eraseIdx h.numbered.ordered hget hfirst hf hdevice
      · rw [Function.update_of_ne hdevice]
        exact h.numbered.fresh f (hsub.subset hf)
    · intro device
      show counters.lastSeen device ≤ _
      rw [hlast]
      by_cases hdevice : device = e.frame.aad.device
      · rw [hdevice]
        rw [Function.update_self]
        exact h.numbered.sent e hmem
      · rw [Function.update_of_ne hdevice]
        exact h.numbered.seen device
    · intro d hd
      rcases List.mem_append.mp hd with hold | hnew
      · exact h.accepted d hold
      · obtain rfl := List.mem_singleton.mp hnew
        rfl

theorem Flowing.step (hfrodo : frodo.Correct) {a : RekeyingAction}
    (hstep : Rekeying.step H hkdf frodo s a = some t) (hlossless : Lossless a)
    (htimely : Timely s a) : Flowing H hkdf frodo t := by
  cases a with
  | exchange a => exact h.exchange hfrodo hstep hlossless htimely
  | ingress protocol frame => exact h.ingressFrame hstep htimely
  | egress i => exact h.egressEnvelope hstep htimely

end

/-! ## Main result -/

/-- In every timely run without losses, the egress accepts every envelope it is handed. -/
theorem accepted_of_timely (hfrodo : frodo.Correct)
    (hrun : Runs H hkdf frodo (fun s a => Lossless a ∧ Timely s a) init s) : Accepted s := by
  have hflowing : Flowing H hkdf frodo s := by
    refine Run.invariant ?_ hrun (.init H hkdf frodo)
    intro s a t hstep hcond hs
    exact hs.step hfrodo hstep hcond.1 hcond.2
  exact hflowing.accepted

/-! ## One envelope -/

/-- A sequence of steps of the exchange. -/
theorem runs_exchange {condition : Rekeying → RekeyingAction → Prop} {as : List ExchangeAction}
    {e : Exchange} (h : Exchange.steps H hkdf frodo s.exchange as = some e)
    (hcond : ∀ a ∈ as, ∀ e, condition { s with exchange := e } (.exchange a)) :
    Runs H hkdf frodo condition s { s with exchange := e } := by
  induction as generalizing s with
  | nil =>
      cases h
      exact Run.refl _
  | cons a as ih =>
      obtain ⟨u, hu, hrest⟩ := Option.bind_eq_some_iff.mp h
      have hfirst : Runs H hkdf frodo condition s { s with exchange := u } := by
        refine (Run.refl s).next (.exchange a) ?_ (hcond a List.mem_cons_self s.exchange)
        show (Exchange.step H hkdf frodo s.exchange a).map _ = _
        rw [hu]
        rfl
      exact hfirst.trans (ih hrest fun b hb e => hcond b (List.mem_cons_of_mem _ hb) e)

/-- A request of a unit. -/
theorem step_readRequest {key : NapqesKey} {seq : UInt64} {counters : SequenceCounter}
    (hseq : s.ingressCounters.nextSeq .modbusTcp 1 = .ok (seq, counters))
    (hkey : s.exchange.ingress.load 1 = .ok key) :
    ∃ w : HonestWrap H, w.key = key ∧ w.aad.deviceId = 1 ∧
      step H hkdf frodo s (.ingress .modbusTcp (readRequest 7)) = some { s with
        ingressCounters := counters
        link := s.link ++ [{ frame := ⟨w.aad, w.pdu, w.envelope⟩, key := some key }] } := by
  obtain ⟨envelope, hround⟩ := @ingressRound_of_key _ H .modbusTcp modbusPdu
    s.exchange.ingress.load (readRequest 7) [1, 3, 0, 0, 0, 10] s.ingressCounters counters 1 seq
    key rfl (by decide) hkey hseq
  obtain ⟨-, -, -, key', hload, hwrap⟩ := ingressRound_eq_some hround
  have hload' : s.exchange.ingress.load 1 = .ok key' := hload
  obtain rfl : key = key' := by
    rw [hkey] at hload'
    exact Except.ok.inj hload'
  refine ⟨⟨key, _, _, envelope, hwrap⟩, rfl, rfl, ?_⟩
  rw [step]
  simp only [ingressFrame, hround, hkey]
  rfl

/-- The only envelope on the link arrives. -/
theorem step_egress_single {f : InFlight} (hlink : s.link = [f]) :
    step H hkdf frodo s (.egress 0) = some { s with
      egressCounters :=
        (egressRound H s.exchange.egress.load f.frame.envelope s.egressCounters).2
      link := []
      delivered := s.delivered ++
        [(f, (egressRound H s.exchange.egress.load f.frame.envelope s.egressCounters).1)] } := by
  have hnext : s.next 0 = some f := by
    simp only [next, hlink, List.getElem?_cons_zero, List.take_zero, List.not_mem_nil,
      false_implies, implies_true, if_true]
  rw [step, hnext, hlink]
  rfl

/-- The second exchange up to its ACK. -/
def secondExchange : List ExchangeAction :=
  [.connect, .accept (.initiator 1) 3, .sendPk, .recvPk 4, .recvCt]

/-- It goes on with the ACK and the insert of the egress. -/
def secondInsert : List ExchangeAction := [.sendAck, .insertEgress]

/-- It ends with the insert of the ingress. -/
def secondEnd : List ExchangeAction := [.recvAck, .insertIngress]

theorem steps_secondExchange :
    ∃ e e₁ e₂ e₃,
      Exchange.steps smallHmac smallHkdf smallFrodo .init Exchange.firstExchange = some e ∧
      Exchange.steps smallHmac smallHkdf smallFrodo e secondExchange = some e₁ ∧
      Exchange.steps smallHmac smallHkdf smallFrodo e₁ secondInsert = some e₂ ∧
      Exchange.steps smallHmac smallHkdf smallFrodo e₂ secondEnd = some e₃ ∧
      e.ingressPending = none ∧ e.ingress.load 1 = .ok (smallKey [1, 2]) ∧
      e₁.egressPending = none ∧ e₂.egress.load 1 = .ok (smallKey [3, 4]) ∧
      e₃.ingressPending = none ∧ e₃.egressPending = none ∧
      e₃.ingress.load 1 = .ok (smallKey [3, 4]) := by
  obtain ⟨e, he, ⟨hi, hr⟩, hopened, hconns, hingress, hegress⟩ := Exchange.steps_firstExchange
  have hconn := (hconns 0).1
  have hdevice : (1 : UInt64) ≠ wildcardDeviceId := by decide
  refine ⟨e, ?_⟩
  simp [he, hi, hr, hopened, hconn, hingress, hegress, secondExchange, secondInsert, secondEnd,
    Exchange.steps, Exchange.step, Exchange.setConn, Conn.fresh, Conn.sendDown, Conn.sendUp,
    keygen_small, recvFramed, encapsulateV8_small, decapsulateV8_small, Exchange.Waiting,
    Exchange.ingressPending, Exchange.egressPending, SessionKeyStore.insert,
    SessionKeyStore.load, SessionKeyStore.new, hdevice]

theorem lossless_secondExchange :
    ∀ a ∈ secondExchange ++ (secondInsert ++ secondEnd), Exchange.Lossless a := by
  simp [secondExchange, secondInsert, secondEnd, Exchange.Lossless]

/-- With an empty link no step of the exchange comes at a wrong time. -/
theorem timely_exchange_of_empty (hlink : s.link = []) (a : ExchangeAction) :
    Timely s (.exchange a) := by
  unfold Timely
  split
  case h_1 =>
    intro f hf
    rw [hlink] at hf
    exact absurd hf List.not_mem_nil
  case h_2 => trivial
  case h_3 heq => cases heq
  case h_4 heq => cases heq

/-- A frame that is sealed after the first exchange arrives during the second, which then ends. -/
theorem exists_runs_rekeyed :
    ∃ s counters,
      Runs smallHmac smallHkdf smallFrodo (fun s a => Lossless a ∧ Timely s a) init s ∧
      s.link = [] ∧ s.delivered.map (fun d => d.1.key) = [some (smallKey [1, 2])] ∧
      s.exchange.ingressPending = none ∧ s.exchange.egressPending = none ∧
      s.exchange.ingress.load 1 = .ok (smallKey [3, 4]) ∧
      s.ingressCounters.nextSeq .modbusTcp 1 = .ok (2, counters) := by
  obtain ⟨e, e₁, e₂, e₃, hfirst, hsecond, hinsert, hend, hi, hload, hr₁, -, hi₃, hr₃, hload₃⟩ :=
    steps_secondExchange
  obtain ⟨counters, counters', hseq, hseq'⟩ : ∃ counters counters',
      SequenceCounter.new.nextSeq .modbusTcp 1 = .ok (1, counters) ∧
        counters.nextSeq .modbusTcp 1 = .ok (2, counters') := ⟨_, _, rfl, rfl⟩
  have hlossless := fun a ha => lossless_secondExchange a ha
  have hagreed : Runs smallHmac smallHkdf smallFrodo (fun s a => Lossless a ∧ Timely s a) init
      { init with exchange := e } :=
    runs_exchange hfirst fun a ha _ =>
      ⟨Exchange.lossless_firstExchange a ha, timely_exchange_of_empty rfl a⟩
  obtain ⟨w, -, -, hseal⟩ := @step_readRequest smallHmac smallHkdf smallFrodo
    { init with exchange := e } _ _ _ hseq hload
  have hsealed := hagreed.next _ hseal ⟨trivial, Or.inl hi⟩
  -- No step before the ACK inserts a key, so the envelope may be on the link.
  have hrekeying := hsealed.trans (runs_exchange hsecond fun a ha _ =>
    ⟨hlossless a (List.mem_append_left _ ha), by
      simp only [secondExchange, List.mem_cons, List.not_mem_nil, or_false] at ha
      rcases ha with rfl | rfl | rfl | rfl | rfl
      all_goals trivial⟩)
  have harrived := hrekeying.next _ (step_egress_single rfl) ⟨trivial, by
    intro f hf
    obtain rfl := Option.some.inj hf
    show some _ ≠ e₁.egressPending
    rw [hr₁]
    exact Option.some_ne_none _⟩
  have hinserted := harrived.trans (runs_exchange hinsert fun a ha _ =>
    ⟨hlossless a (List.mem_append_right _ (List.mem_append_left _ ha)),
      timely_exchange_of_empty rfl a⟩)
  have hrekeyed := hinserted.trans (runs_exchange hend fun a ha _ =>
    ⟨hlossless a (List.mem_append_right _ (List.mem_append_right _ ha)),
      timely_exchange_of_empty rfl a⟩)
  exact ⟨_, _, hrekeyed, rfl, rfl, hi₃, hr₃, hload₃, hseq'⟩

/-- After that, a frame that is sealed with the new key arrives too, and both are accepted. -/
theorem accepted_of_timely_readRequest :
    smallFrodo.Correct ∧
      ∃ s, Runs smallHmac smallHkdf smallFrodo (fun s a => Lossless a ∧ Timely s a) init s ∧
        s.delivered.map (fun d => d.1.key) = [some (smallKey [1, 2]), some (smallKey [3, 4])] ∧
        Accepted s := by
  obtain ⟨s, counters, hrekeyed, hlink, hkeys, hi, hr, hload, hseq⟩ := exists_runs_rekeyed
  obtain ⟨w, -, -, hseal⟩ := @step_readRequest smallHmac smallHkdf smallFrodo s _ _ _ hseq hload
  rw [hlink] at hseal
  have hsealed := hrekeyed.next _ hseal ⟨trivial, Or.inl hi⟩
  have hrun := hsealed.next _ (step_egress_single rfl) ⟨trivial, by
    intro f hf
    obtain rfl := Option.some.inj hf
    show some _ ≠ s.exchange.egressPending
    rw [hr]
    exact Option.some_ne_none _⟩
  refine ⟨smallFrodo_correct, _, hrun, ?_, accepted_of_timely smallFrodo_correct hrun⟩
  simp only [List.map_append, hkeys]
  rfl

/-- An envelope sealed with one key of the instance is dropped with another. -/
theorem egressRound_small_ne (w : HonestWrap smallHmac) {keyStore : KeyStore} {key : NapqesKey}
    (hkey : keyStore w.aad.deviceId = .ok key)
    (hne : w.skFmt.take 24 ≠ (deriveFormatSubkey smallHmac key.sk formatBlockV8).toList.take 24)
    (counters : SequenceCounter) :
    (egressRound smallHmac keyStore w.envelope counters).1 = none := by
  have hopen : ∀ r, openPdu smallHmac (hmacVerify smallHmac) w.envelope key ≠ .ok r := by
    intro r h
    have hlong : 8 ≤ w.tagInput.length := by
      show 8 ≤ (authTagInput _ _ _).length
      rw [authTagInput, List.length_cons, List.length_append, FixedBytes.length_toList, nonceSize]
      omega
    have htag : (smallHmac w.skFmt w.tagInput).toList.drop 8 =
        (smallHmac (deriveFormatSubkey smallHmac key.sk formatBlockV8).toList
          w.tagInput).toList.drop 8 := by
      rw [w.tag_of_openPdu h]
    have hleft := drop_smallHmac (show w.skFmt.length = 32 from FixedBytes.length_toList _) hlong
    rw [hleft, drop_smallHmac (FixedBytes.length_toList _) hlong] at htag
    exact hne htag
  rw [egressRound, w.peekDeviceId_envelope]
  simp only [hkey, unwrapPdu]
  split
  case h_1 pdu c hunwrap =>
    split at hunwrap
    case h_1 => cases hunwrap
    case h_2 aad pdu' hok => exact absurd hok (hopen _)
  case h_2 => rfl

/-- A frame is sealed after the first exchange and arrives when the egress has inserted the key
of the second: nothing of either exchange is lost, and the frame is dropped. -/
theorem drops_envelope_of_old_key :
    ∃ s, Runs smallHmac smallHkdf smallFrodo (fun _ a => Lossless a) init s ∧ ¬Accepted s := by
  obtain ⟨e, e₁, e₂, e₃, hfirst, hsecond, hinsert, -, -, hload, -, hload', -⟩ :=
    steps_secondExchange
  have hagreed : Runs smallHmac smallHkdf smallFrodo (fun _ a => Lossless a) init
      { init with exchange := e } :=
    runs_exchange hfirst fun a ha _ => Exchange.lossless_firstExchange a ha
  obtain ⟨w, hw, hdevice, hseal⟩ := @step_readRequest smallHmac smallHkdf smallFrodo
    { init with exchange := e } _ 1 _ rfl hload
  have hsealed := hagreed.next _ hseal trivial
  have hrekeying := hsealed.trans (runs_exchange hsecond fun a ha _ =>
    lossless_secondExchange a (List.mem_append_left _ ha))
  have hinserted := hrekeying.trans (runs_exchange hinsert fun a ha _ =>
    lossless_secondExchange a (List.mem_append_right _ (List.mem_append_left _ ha)))
  have hrun := hinserted.next _ (step_egress_single rfl) trivial
  refine ⟨_, hrun, ?_⟩
  intro haccepted
  have hnone := egressRound_small_ne w (hdevice ▸ hload') (by
    rw [HonestWrap.skFmt, hw]
    decide) SequenceCounter.new
  have hsome := haccepted _ (List.mem_append_right _ List.mem_cons_self)
  exact absurd (hnone.symm.trans hsome) (Option.some_ne_none _).symm

end Rekeying

end Napqes.Rust
