import Napqes.Misc.ReplayWindow
import Napqes.Rust.Proofs.Egress
import Napqes.Rust.Proofs.Ingress
import Napqes.Rust.Proofs.OtReplay
import Napqes.Rust.Proofs.Traffic
import Napqes.Rust.Tunnel

/-!
# The tunnel is a lossy channel

Whatever the network does, what the egress gateway accepts from a device is what the ingress
gateway numbered for it, in this order, with gaps: the tunnel refines a channel that can only lose
messages. What is on its way are the PDUs with a number beyond the last one seen.
-/

namespace Napqes.Rust

variable {H : Hmac} {verify : List (HonestWrap H) → NapqesKey → TagCheck}

/-! ## The egress -/

/-- What a step of the egress does to the replay windows and what it shows. -/
theorem EgressStep.counters {verify : NapqesKey → TagCheck} {s t : Egress} {event : EgressEvent}
    (h : EgressStep H verify event s t) :
    (s.shown event = [] ∧ t.counters.lastSeen = s.counters.lastSeen) ∨
      ∃ task ∈ s.tasks, ∃ key aad pdu, task.phase = .opened key aad pdu ∧
        s.shown event = [.received aad.device pdu] ∧
        s.counters.lastSeen aad.device < aad.seq ∧
        t.counters.lastSeen = Function.update s.counters.lastSeen aad.device aad.seq := by
  cases h with
  | accept _ i task key aad pdu counters hget hphase hvalid =>
      obtain ⟨hlt, hlast⟩ := lastSeen_of_validateRecv_ok hvalid
      refine Or.inr ⟨task, List.mem_of_getElem? hget, key, aad, pdu, hphase, ?_, hlt, hlast⟩
      obtain ⟨protocol, incoming, phase⟩ := task
      subst hphase
      simp only [Egress.shown, hget]
  | refuse _ i task key aad pdu counters e hget hphase hvalid =>
      exact Or.inl ⟨rfl, lastSeen_of_validateRecv_error hvalid⟩
  | connect | install | load | skip | opened | openFailed | forward => exact Or.inl ⟨rfl, rfl⟩

/-- A task that holds an open envelope has just opened it, or held it before. -/
theorem EgressStep.opened_or {verify : NapqesKey → TagCheck} {s t : Egress} {event : EgressEvent}
    (h : EgressStep H verify event s t) {task : EgressTask} (htask : task ∈ t.tasks)
    {key : NapqesKey} {aad : OtAad} {pdu : List UInt8} (hphase : task.phase = .opened key aad pdu) :
    (∃ task' ∈ s.tasks, task'.phase = .opened key aad pdu) ∨
      ∃ buf, openPdu H (verify key) buf key = .ok (aad, pdu) := by
  have hset : ∀ {i : Nat} {new : EgressTask}, task ∈ (s.setTask i new).tasks →
      (∀ k a p, new.phase ≠ .opened k a p) →
      (∃ task' ∈ s.tasks, task'.phase = .opened key aad pdu) := by
    intro i new hmem hnew
    rcases List.mem_or_eq_of_mem_set hmem with hold | rfl
    · exact ⟨task, hold, hphase⟩
    · exact absurd hphase (hnew _ _ _)
  cases h with
  | connect _ protocol stream =>
      rcases List.mem_append.mp htask with hold | hnew
      · exact Or.inl ⟨task, hold, hphase⟩
      · rw [List.mem_singleton.mp hnew] at hphase
        cases hphase
  | install => exact Or.inl ⟨task, htask, hphase⟩
  | load _ i task' buf rest deviceId key' hget hphase' hnext hdevice hkey =>
      exact Or.inl (hset htask (by simp))
  | skip _ i task' buf rest hget hphase' hnext hnokey =>
      exact Or.inl (hset htask (by simp [hphase']))
  | opened _ i task' buf key' aad' pdu' hget hphase' hopen =>
      rcases List.mem_or_eq_of_mem_set htask with hold | rfl
      · exact Or.inl ⟨task, hold, hphase⟩
      · cases hphase
        exact Or.inr ⟨buf, hopen⟩
  | openFailed _ i task' buf key' e hget hphase' hopen => exact Or.inl (hset htask (by simp))
  | accept _ i task' key' aad' pdu' counters hget hphase' hvalid =>
      exact Or.inl (hset htask (by simp))
  | refuse _ i task' key' aad' pdu' counters e hget hphase' hvalid =>
      exact Or.inl (hset htask (by simp))
  | forward _ i task' key' aad' pdu' hget hphase' => exact Or.inl (hset htask (by simp))

namespace Tunnel

variable {s t : Tunnel H}

/-! ## The invariant -/

/-- The numbers of a device grow and have been given out, and every PDU the gateways work on was
numbered with the header it carries. -/
structure Numbered (s : Tunnel H) : Prop where
  ordered : s.numbered.Pairwise fun a b => a.1.device = b.1.device → a.1.seq < b.1.seq
  given : ∀ n ∈ s.numbered, n.1.seq ≤ s.sendCounters.lastSent n.1.device
  ingress : ∀ task ∈ s.ingress, ∀ aad pdu, task.phase = .numbered aad pdu →
    (aad, pdu) ∈ s.numbered
  wraps : ∀ w ∈ s.wraps, (w.aad, w.pdu) ∈ s.numbered
  egress : ∀ task ∈ s.egress.tasks, ∀ key aad pdu, task.phase = .opened key aad pdu →
    (aad, pdu) ∈ s.numbered

theorem Numbered.init (ingressKeys egressKeys : KeyStore)
    (sendCounters recvCounters : SequenceCounter) :
    Numbered (Tunnel.init H ingressKeys egressKeys sendCounters recvCounters) where
  ordered := .nil
  given _ h := absurd h List.not_mem_nil
  ingress _ h := absurd h List.not_mem_nil
  wraps _ h := absurd h List.not_mem_nil
  egress _ h := absurd h List.not_mem_nil

section
variable (hs : Numbered s)
include hs

/-- An ingress task moves on to a phase in which it holds no number. -/
theorem Numbered.setIngress {i : Nat} {task : IngressTask}
    (htask : ∀ aad pdu, task.phase ≠ .numbered aad pdu) : Numbered (s.setIngress i task) := by
  refine { hs with ingress := ?_ }
  intro task' hmem aad pdu hphase
  rcases List.mem_or_eq_of_mem_set hmem with hold | rfl
  · exact hs.ingress task' hold aad pdu hphase
  · exact absurd hphase (htask aad pdu)

/-- A number is given out. -/
theorem Numbered.number {i : Nat} {task : IngressTask} {reads : List (List UInt8)}
    {deviceId seq : UInt64} {pdu : List UInt8} {sendCounters : SequenceCounter}
    (hseq : s.sendCounters.nextSeq task.protocol deviceId = .ok (seq, sendCounters)) :
    Numbered { s.setIngress i { task with
        reads, phase := .numbered { protocol := task.protocol, deviceId, seq } pdu } with
      sendCounters
      numbered := s.numbered ++ [({ protocol := task.protocol, deviceId, seq }, pdu)] } := by
  obtain ⟨hlt, hvalue, -⟩ := nextSeq_eq_ok_iff.mp hseq
  have hlast : seq = sendCounters.lastSent (task.protocol, deviceId) := by
    apply UInt64.toNat_inj.mp
    rw [lastSent_of_nextSeq hseq deviceId, if_pos rfl, hvalue, UInt64.toNat_add,
      UInt64.toNat_one, Nat.mod_eq_of_lt hlt]
  have hgrown : s.sendCounters.lastSent (task.protocol, deviceId) < seq := by
    rw [hvalue, UInt64.lt_iff_toNat_lt, UInt64.toNat_add, UInt64.toNat_one, Nat.mod_eq_of_lt hlt]
    exact Nat.lt_succ_self _
  have hkept : ∀ {n}, n ∈ s.numbered → n ∈ s.numbered ++
      [(({ protocol := task.protocol, deviceId, seq } : OtAad), pdu)] :=
    fun hn => List.mem_append_left _ hn
  refine ⟨?_, ?_, ?_, fun w hw => hkept (hs.wraps w hw),
    fun task' ht key aad pdu' hphase => hkept (hs.egress task' ht key aad pdu' hphase)⟩
  · show List.Pairwise _ (s.numbered ++ _)
    rw [List.pairwise_append]
    refine ⟨hs.ordered, List.pairwise_singleton _ _, ?_⟩
    intro n hn m hm hdevice
    rw [List.mem_singleton.mp hm] at hdevice ⊢
    refine UInt64.lt_of_le_of_lt ?_ hgrown
    have hle := hs.given n hn
    rw [hdevice] at hle
    exact hle
  · intro n hn
    rcases List.mem_append.mp hn with hold | hnew
    · exact UInt64.le_trans (hs.given n hold) (lastSent_le_of_nextSeq hseq _)
    · rw [List.mem_singleton.mp hnew]
      exact hlast ▸ UInt64.le_refl _
  · intro task' hmem aad pdu' hphase
    rcases List.mem_or_eq_of_mem_set hmem with hold | rfl
    · exact hkept (hs.ingress task' hold aad pdu' hphase)
    · cases hphase
      exact List.mem_append_right _ List.mem_cons_self

/-- An open envelope was sealed by the ingress gateway. -/
theorem Numbered.egress_step (hmac : IdealBlockMac H s.wraps (verify s.wraps))
    {event : EgressEvent} {e : Egress} (h : EgressStep H (verify s.wraps) event s.egress e) :
    Numbered { s with egress := e } := by
  refine { hs with egress := ?_ }
  intro task htask key aad pdu hphase
  rcases h.opened_or htask hphase with ⟨task', hmem, hphase'⟩ | ⟨buf, hopen⟩
  · exact hs.egress task' hmem key aad pdu hphase'
  · obtain ⟨w, hw, -, rfl, rfl, -⟩ := sealed_of_openPdu hmac hopen
    exact hs.wraps w hw

theorem Numbered.step (hmac : ∀ wraps, IdealBlockMac H wraps (verify wraps)) {es : List PduEvent}
    (h : TunnelStep H verify s es t) : Numbered t := by
  cases h with
  | connect protocol reads =>
      refine { hs with ingress := ?_ }
      intro task hmem aad pdu hphase
      rcases List.mem_append.mp hmem with hold | hnew
      · exact hs.ingress task hold aad pdu hphase
      · rw [List.mem_singleton.mp hnew] at hphase
        cases hphase
  | install ingressKeys => exact { hs with }
  | number i task frame reads deviceId pdu seq counters hget hphase hreads hne hpdu hseq =>
      exact hs.number hseq
  | skip i task frame reads hget hphase hreads hne hpdu => exact hs.setIngress (by simp [hphase])
  | close i task reads hget hphase hreads => exact hs.setIngress (by simp [hphase])
  | wrap i task aad pdu key envelope hget hphase hkey made =>
      have hset : Numbered (s.setIngress i { task with phase := .sealed { aad, pdu, envelope } }) :=
        hs.setIngress (by simp)
      refine { hset with wraps := ?_ }
      intro w hw
      rcases List.mem_append.mp hw with hold | hnew
      · exact hs.wraps w hold
      · rw [List.mem_singleton.mp hnew]
        exact hs.ingress task (List.mem_of_getElem? hget) aad pdu hphase
  | drop i task aad pdu hget hphase hfails => exact hs.setIngress (by simp)
  | forward i task frame hget hphase => exact hs.setIngress (by simp)
  | egress event e hstep => exact hs.egress_step (hmac s.wraps) hstep

end

/-! ## What is on its way -/

/-- What was numbered for a device beyond a number. -/
def beyond (numbered : List (OtAad × List UInt8)) (device : DeviceKey) (seq : UInt64) :
    List (List UInt8) :=
  ((numbered.filter fun n => n.1.device = device).filter fun n => seq < n.1.seq).map Prod.snd

/-- The PDUs of each device that may still be accepted. -/
def onTheWay (s : Tunnel H) : DeviceKey → List (List UInt8) :=
  fun device => beyond s.numbered device (s.egress.counters.lastSeen device)

/-- One more PDU is numbered. -/
theorem beyond_append (numbered : List (OtAad × List UInt8)) (aad : OtAad) (pdu : List UInt8)
    (device : DeviceKey) (seq : UInt64) :
    beyond (numbered ++ [(aad, pdu)]) device seq =
      beyond numbered device seq ++ if aad.device = device ∧ seq < aad.seq then [pdu] else [] := by
  rw [beyond, List.filter_append, List.filter_append, List.map_append, beyond]
  congr 1
  by_cases hdevice : aad.device = device
  · by_cases hseq : seq < aad.seq
    · simp [hdevice, hseq]
    · simp [hdevice, hseq]
  · simp [hdevice]

/-- What is beyond the last number seen ends in what is beyond a later one. -/
theorem Numbered.beyond_eq (hs : Numbered s) {aad : OtAad} {pdu : List UInt8}
    (hmem : (aad, pdu) ∈ s.numbered) {seq : UInt64} (hseq : seq < aad.seq) :
    ∃ before, beyond s.numbered aad.device seq =
      before ++ pdu :: beyond s.numbered aad.device aad.seq := by
  have hordered : (s.numbered.filter fun n => n.1.device = aad.device).Pairwise
      fun a b => a.1.seq < b.1.seq := by
    refine List.Pairwise.imp_of_mem ?_ (hs.ordered.filter _)
    intro a b ha hb hab
    have hdevicea : a.1.device = aad.device := by simpa using (List.mem_filter.mp ha).2
    have hdeviceb : b.1.device = aad.device := by simpa using (List.mem_filter.mp hb).2
    exact hab (hdevicea.trans hdeviceb.symm)
  obtain ⟨before, hbefore⟩ := ReplayWindow.filter_beyond (f := fun n => n.1.seq) hordered
    (List.mem_filter.mpr ⟨hmem, by simp⟩) hseq
  refine ⟨before.map Prod.snd, ?_⟩
  rw [beyond, hbefore, List.map_append, List.map_cons]
  rfl

/-! ## The simulation -/

/-- A numbered PDU is sent; if the receiver has seen a higher number already, it is lost. -/
theorem traced_number (s : Tunnel H) (aad : OtAad) (pdu : List UInt8) :
    Traced ChannelStep s.onTheWay [.sent aad.device pdu] fun device =>
      beyond (s.numbered ++ [(aad, pdu)]) device (s.egress.counters.lastSeen device) := by
  have hsent := Traced.single (ChannelStep.send s.onTheWay aad.device pdu)
  have hlose := ChannelStep.lose (Function.update s.onTheWay aad.device
    (s.onTheWay aad.device ++ [pdu])) aad.device
    (beyond (s.numbered ++ [(aad, pdu)]) aad.device (s.egress.counters.lastSeen aad.device)) (by
      rw [Function.update_self, beyond_append, onTheWay]
      apply List.Sublist.append_left
      split
      · exact List.Sublist.refl _
      · exact List.nil_sublist _)
  have hqueue : (Function.update (Function.update s.onTheWay aad.device
      (s.onTheWay aad.device ++ [pdu])) aad.device
      (beyond (s.numbered ++ [(aad, pdu)]) aad.device
        (s.egress.counters.lastSeen aad.device))) = fun device =>
      beyond (s.numbered ++ [(aad, pdu)]) device (s.egress.counters.lastSeen device) := by
    funext device
    by_cases hdevice : device = aad.device
    · rw [hdevice, Function.update_self]
    · rw [Function.update_of_ne hdevice, Function.update_of_ne hdevice, beyond_append,
        if_neg (fun h => hdevice h.1.symm), List.append_nil, onTheWay]
  rw [← hqueue]
  exact hsent.silent hlose

/-- An accepted PDU is received; those numbered before it are lost. -/
theorem Numbered.traced_accept (hs : Numbered s) {aad : OtAad} {pdu : List UInt8}
    (hmem : (aad, pdu) ∈ s.numbered)
    (hfresh : s.egress.counters.lastSeen aad.device < aad.seq) {e : Egress}
    (hlast : e.counters.lastSeen =
      Function.update s.egress.counters.lastSeen aad.device aad.seq) :
    Traced ChannelStep s.onTheWay [.received aad.device pdu]
      (onTheWay { s with egress := e }) := by
  obtain ⟨before, hbefore⟩ := hs.beyond_eq hmem hfresh
  have hlose := Traced.single (ChannelStep.lose s.onTheWay aad.device
    (pdu :: beyond s.numbered aad.device aad.seq) (by
      rw [onTheWay, hbefore]
      exact List.sublist_append_right _ _))
  have hreceive := ChannelStep.receive (Function.update s.onTheWay aad.device
    (pdu :: beyond s.numbered aad.device aad.seq)) aad.device pdu
    (beyond s.numbered aad.device aad.seq) (Function.update_self ..)
  have hqueue : Function.update (Function.update s.onTheWay aad.device
      (pdu :: beyond s.numbered aad.device aad.seq)) aad.device
      (beyond s.numbered aad.device aad.seq) = onTheWay { s with egress := e } := by
    funext device
    rw [onTheWay]
    by_cases hdevice : device = aad.device
    · simp only [hdevice, Function.update_self, hlast]
    · simp only [Function.update_of_ne hdevice, hlast, onTheWay]
  rw [← hqueue]
  exact hlose.next hreceive

/-- The channel follows every step of the gateways. -/
theorem simulates_lossyChannel (hmac : ∀ wraps, IdealBlockMac H wraps (verify wraps)) :
    ForwardSimulation (TunnelStep H verify) ChannelStep fun s c => Numbered s ∧ c = s.onTheWay := by
  rintro s es t hstep c ⟨hs, rfl⟩
  refine ⟨t.onTheWay, ?_, hs.step hmac hstep, rfl⟩
  cases hstep with
  | number i task frame reads deviceId pdu seq counters hget hphase hreads hne hpdu hseq =>
      exact s.traced_number { protocol := task.protocol, deviceId, seq } pdu
  | egress event e hegress =>
      rcases hegress.counters with ⟨hshown, hlast⟩ |
        ⟨task, htask, key, aad, pdu, hphase, hshown, hfresh, hlast⟩
      · rw [hshown]
        have hsame : onTheWay { s with egress := e } = s.onTheWay := by
          unfold onTheWay
          rw [hlast]
        rw [hsame]
        exact .refl _
      · rw [hshown]
        exact hs.traced_accept (hs.egress task htask key aad pdu hphase) hfresh hlast
  | connect | install | skip | close | wrap | drop | forward => exact .refl _

/-- Nothing is on its way at the start. -/
theorem onTheWay_init (ingressKeys egressKeys : KeyStore)
    (sendCounters recvCounters : SequenceCounter) :
    (Tunnel.init H ingressKeys egressKeys sendCounters recvCounters).onTheWay = fun _ => [] := rfl

end Tunnel

/-! ## What is forwarded -/

/-- The PDU a task has accepted and not yet forwarded. -/
def heldPdu (task : EgressTask) : Multiset (List UInt8) :=
  match task.phase with
  | .accepted _ _ pdu => {pdu}
  | _ => 0

/-- The PDUs that were accepted: forwarded already, or held by a task. -/
def Egress.acceptedPdus (s : Egress) : Multiset (List UInt8) :=
  ↑(s.forwarded.map Forwarded.pdu) + (s.tasks.map heldPdu).sum

/-- A task moves on. -/
theorem Egress.acceptedPdus_setTask {s : Egress} {i : Nat} {task : EgressTask}
    (hget : s.tasks[i]? = some task) (task' : EgressTask) :
    (s.setTask i task').acceptedPdus + heldPdu task = s.acceptedPdus + heldPdu task' := by
  have hsum : ((s.tasks.set i task').map heldPdu).sum + heldPdu task =
      (s.tasks.map heldPdu).sum + heldPdu task' := Traffic.sum_map_set hget task' heldPdu
  rw [Egress.acceptedPdus, Egress.acceptedPdus, Egress.setTask, add_assoc, hsum, add_assoc]

/-- A task that holds nothing before and after a step. -/
theorem Egress.acceptedPdus_setTask_of_held {s : Egress} {i : Nat} {task task' : EgressTask}
    (hget : s.tasks[i]? = some task) (h : heldPdu task = 0) (h' : heldPdu task' = 0) :
    (s.setTask i task').acceptedPdus = s.acceptedPdus := by
  have hsum := Egress.acceptedPdus_setTask hget task'
  rwa [h, h', add_zero, add_zero] at hsum

/-- What a step accepts is what it shows; forwarding a PDU accepts nothing. -/
theorem EgressStep.acceptedPdus {verify : NapqesKey → TagCheck} {s t : Egress}
    {event : EgressEvent} (h : EgressStep H verify event s t) :
    t.acceptedPdus = s.acceptedPdus + ↑((receivedLog (s.shown event)).map Prod.snd) := by
  have hzero : ∀ task : EgressTask, (∀ k a p, task.phase ≠ .accepted k a p) →
      heldPdu task = 0 := by
    intro task hne
    unfold heldPdu
    split
    case h_1 k a p hphase => exact absurd hphase (hne k a p)
    case h_2 => rfl
  have hsilent : s.acceptedPdus = s.acceptedPdus +
      ↑((receivedLog ([] : List PduEvent)).map Prod.snd) := (add_zero _).symm
  cases h with
  | connect _ protocol stream =>
      refine Eq.trans ?_ hsilent
      simp [Egress.acceptedPdus, heldPdu]
  | install => exact hsilent
  | load _ i task buf rest deviceId key hget hphase hnext hdevice hkey =>
      exact (Egress.acceptedPdus_setTask_of_held hget (hzero _ (by simp [hphase]))
        (hzero _ (by simp))).trans hsilent
  | skip _ i task buf rest hget hphase hnext hnokey =>
      exact (Egress.acceptedPdus_setTask_of_held hget (hzero _ (by simp [hphase]))
        (hzero _ (by simp [hphase]))).trans hsilent
  | opened _ i task buf key aad pdu hget hphase hopen =>
      exact (Egress.acceptedPdus_setTask_of_held hget (hzero _ (by simp [hphase]))
        (hzero _ (by simp))).trans hsilent
  | openFailed _ i task buf key e hget hphase hopen =>
      exact (Egress.acceptedPdus_setTask_of_held hget (hzero _ (by simp [hphase]))
        (hzero _ (by simp))).trans hsilent
  | refuse _ i task key aad pdu counters e hget hphase hvalid =>
      exact (Egress.acceptedPdus_setTask_of_held hget (hzero _ (by simp [hphase]))
        (hzero _ (by simp))).trans hsilent
  | accept _ i task key aad pdu counters hget hphase hvalid =>
      have hheld : heldPdu task = 0 := hzero _ (by simp [hphase])
      have hsum := Egress.acceptedPdus_setTask hget { task with phase := .accepted key aad pdu }
      rw [hheld, add_zero] at hsum
      have hshown : s.shown (.accept i) = [.received aad.device pdu] := by
        obtain ⟨protocol, incoming, phase⟩ := task
        subst hphase
        simp only [Egress.shown, hget]
      rw [hshown]
      exact hsum
  | forward _ i task key aad pdu hget hphase =>
      refine Eq.trans ?_ hsilent
      have hsum := Egress.acceptedPdus_setTask hget { task with phase := .reading }
      have hheld : heldPdu task = {pdu} := by
        rw [heldPdu, hphase]
      rw [hheld] at hsum
      have hmoved : Egress.acceptedPdus { s.setTask i { task with phase := .reading } with
          forwarded := s.forwarded ++ [{ protocol := task.protocol
                                         pdu
                                         bytes := forwardEnvelope
                                           (egressFrame task.protocol pdu) }] } =
          (s.setTask i { task with phase := .reading }).acceptedPdus + {pdu} := by
        rw [Egress.acceptedPdus, Egress.acceptedPdus, List.map_append, ← Multiset.coe_add,
          add_right_comm]
        rfl
      rw [hmoved, hsum]
      exact add_zero _

/-- In every run, what was accepted is what the run shows as received. -/
theorem TunnelRun.acceptedPdus {s t : Tunnel H} {es : List PduEvent}
    (h : TunnelRun H verify s es t) (hs : s.egress.acceptedPdus = 0) :
    t.egress.acceptedPdus = ↑((receivedLog es).map Prod.snd) := by
  refine Traced.invariant (I := fun es (t : Tunnel H) =>
    t.egress.acceptedPdus = ↑((receivedLog es).map Prod.snd)) ?_ h hs
  intro es s es' t hstep hs
  rw [receivedLog_append, List.map_append, ← Multiset.coe_add, ← hs]
  cases hstep with
  | egress event e hegress => exact hegress.acceptedPdus
  | connect | install | number | skip | close | wrap | drop | forward => exact (add_zero _).symm

section
variable (hmac : ∀ wraps, IdealBlockMac H wraps (verify wraps))
  {ingressKeys egressKeys : KeyStore} {sendCounters recvCounters : SequenceCounter}
  {es : List PduEvent} {s : Tunnel H}
  (hrun : TunnelRun H verify (.init H ingressKeys egressKeys sendCounters recvCounters) es s)
include hmac hrun

/-- A channel that can only lose messages shows what a run shows. -/
theorem TunnelRun.exists_channel : ∃ c, Traced ChannelStep (fun _ => []) es c := by
  obtain ⟨c, hchannel, -⟩ := (Tunnel.simulates_lossyChannel hmac).traced hrun
    ⟨.init ingressKeys egressKeys sendCounters recvCounters,
      (Tunnel.onTheWay_init ingressKeys egressKeys sendCounters recvCounters).symm⟩
  exact ⟨c, hchannel⟩

/-- What was forwarded was accepted, and what was accepted was sent. -/
theorem TunnelRun.forwarded_subperm :
    (s.egress.forwarded.map Forwarded.pdu).Subperm ((sentLog es).map Prod.snd) := by
  obtain ⟨c, hchannel⟩ := hrun.exists_channel hmac
  have hlogs : (↑(receivedLog es) : Multiset (DeviceKey × List UInt8)) ≤ ↑(sentLog es) :=
    Multiset.coe_le.mpr (receivedLog_subperm hchannel)
  have hsent := Multiset.map_le_map (f := Prod.snd) hlogs
  have haccepted := hrun.acceptedPdus rfl
  exact ((Multiset.le_add_right _ _).trans (le_of_eq haccepted)).trans hsent

end

/-! ## A delivery -/

/-- A client sends a request to unit 1, and the network delivers the envelope. -/
theorem exists_run_delivery (H : Hmac) (key : NapqesKey) :
    ∃ s, TunnelRun H logBlockVerify
        (.init H (fun _ => .ok key) (fun _ => .ok key) .new .new)
        [.sent (.modbusTcp, 1) [1, 3, 0, 0, 0, 10], .received (.modbusTcp, 1) [1, 3, 0, 0, 0, 10]]
        s ∧
      s.egress.forwarded.map Forwarded.pdu = [[1, 3, 0, 0, 0, 10]] := by
  let aad : OtAad := { protocol := .modbusTcp, deviceId := 1, seq := 1 }
  let pdu : List UInt8 := [1, 3, 0, 0, 0, 10]
  obtain ⟨envelope, made⟩ := @exists_wrapPdu H pdu (by decide) aad key
  let w : HonestWrap H := { key, aad, pdu, envelope, made }
  obtain ⟨⟨seq, counters⟩, hseq⟩ : ∃ r, SequenceCounter.new.nextSeq .modbusTcp 1 = .ok r := ⟨_, rfl⟩
  obtain rfl : seq = 1 := by
    obtain ⟨-, hvalue, -⟩ := nextSeq_eq_ok_iff.mp hseq
    rw [hvalue]
    rfl
  have hopen := w.openPdu_envelope (logBlockVerify_self (List.mem_singleton.mpr rfl)) []
  rw [List.append_nil] at hopen
  obtain ⟨recvCounters, hvalid, -⟩ := @validateRecv_of_lt SequenceCounter.new aad (by decide)
  have hpdu : ingressPdu .modbusTcp (readRequest 1) = some (1, pdu) := rfl
  -- The ingress gateway with its one task, and the egress gateway with its one task.
  let keys : KeyStore := fun _ => .ok key
  let task (reads : List (List UInt8)) (phase : IngressPhase) : IngressTask :=
    { protocol := .modbusTcp, reads, phase }
  let conn (incoming : List (List UInt8)) (phase : EgressPhase) : EgressTask :=
    { protocol := .modbusTcp, incoming, phase }
  let state (phase : IngressPhase) (wraps : List (HonestWrap H)) (egress : Egress) : Tunnel H :=
    { ingressKeys := keys, sendCounters := counters, ingress := [task [] phase], egress,
      numbered := [(aad, pdu)], wraps }
  let egress (c : SequenceCounter) (t : EgressTask) : Egress :=
    { keyStore := keys, counters := c, tasks := [t], forwarded := [] }
  have hconnect := @TunnelStep.connect H logBlockVerify (.init H keys keys .new .new) .modbusTcp
    [readRequest 1]
  have hnumber := @TunnelStep.number H logBlockVerify
    { Tunnel.init H keys keys .new .new with ingress := [task [readRequest 1] .reading] } 0
    (task [readRequest 1] .reading) (readRequest 1) [] 1 pdu 1 counters rfl rfl rfl
    (List.cons_ne_nil _ _) hpdu hseq
  have hwrap := @TunnelStep.wrap H logBlockVerify
    (state (.numbered aad pdu) [] (.init keys .new)) 0 (task [] (.numbered aad pdu)) aad pdu key
    envelope rfl rfl rfl made
  have hforward := @TunnelStep.forward H logBlockVerify
    (state (.sealed { aad, pdu, envelope }) [w] (.init keys .new)) 0
    (task [] (.sealed { aad, pdu, envelope })) { aad, pdu, envelope } rfl rfl
  have harrive : TunnelStep H logBlockVerify (state .reading [w] (.init keys .new)) []
      (state .reading [w] (egress .new (conn [envelope] .reading))) := by
    have hstep := @TunnelStep.egress H logBlockVerify (state .reading [w] (.init keys .new)) _ _
      (EgressStep.connect _ .modbusTcp [envelope])
    rwa [w.egressLoop_envelope] at hstep
  have hload := @TunnelStep.egress H logBlockVerify
    (state .reading [w] (egress .new (conn [envelope] .reading))) _ _
    (EgressStep.load (egress .new (conn [envelope] .reading)) 0 (conn [envelope] .reading) envelope
      [] 1 key rfl rfl rfl w.peekDeviceId_envelope rfl)
  have hopened := @TunnelStep.egress H logBlockVerify
    (state .reading [w] (egress .new (conn [] (.loaded envelope key)))) _ _
    (EgressStep.opened (egress .new (conn [] (.loaded envelope key))) 0
      (conn [] (.loaded envelope key)) envelope key aad pdu rfl rfl hopen)
  have haccept := @TunnelStep.egress H logBlockVerify
    (state .reading [w] (egress .new (conn [] (.opened key aad pdu)))) _ _
    (EgressStep.accept (egress .new (conn [] (.opened key aad pdu))) 0
      (conn [] (.opened key aad pdu)) key aad pdu recvCounters rfl rfl hvalid)
  have hdeliver := @TunnelStep.egress H logBlockVerify
    (state .reading [w] (egress recvCounters (conn [] (.accepted key aad pdu)))) _ _
    (EgressStep.forward (egress recvCounters (conn [] (.accepted key aad pdu))) 0
      (conn [] (.accepted key aad pdu)) key aad pdu rfl rfl)
  exact ⟨_, ((((((((Traced.single hconnect).next hnumber).silent hwrap).silent hforward).silent
    harrive).silent hload).silent hopened).next haccept).silent hdeliver, rfl⟩

/-! ## Main results -/

/-- The tunnel refines a lossy channel: under an ideal MAC, whatever arrives at the egress and
however the tasks interleave, a channel that can only lose messages shows the same PDUs being
numbered and accepted. So what is accepted from a device is what was numbered for it, in this
order, with gaps. -/
theorem tunnel_refines_lossyChannel (H : Hmac)
    (verify : List (HonestWrap H) → NapqesKey → TagCheck)
    (hmac : ∀ wraps, IdealBlockMac H wraps (verify wraps)) (ingressKeys egressKeys : KeyStore)
    (sendCounters recvCounters : SequenceCounter) (es : List PduEvent) (s : Tunnel H)
    (hrun : TunnelRun H verify (.init H ingressKeys egressKeys sendCounters recvCounters) es s) :
    (∃ c, Traced ChannelStep (fun _ => []) es c) ∧
      ∀ device : DeviceKey, (messagesOf device (receivedLog es)).Sublist
        (messagesOf device (sentLog es)) := by
  obtain ⟨c, hchannel⟩ := hrun.exists_channel hmac
  exact ⟨⟨c, hchannel⟩, receivedLog_sublist hchannel⟩

/-- A request is numbered and accepted. -/
theorem tunnel_refines_lossyChannel_delivery :
    ∃ s, TunnelRun zeroHmac logBlockVerify
        (.init zeroHmac (fun _ => .ok zeroWrap.key) (fun _ => .ok zeroWrap.key) .new .new)
        [.sent (.modbusTcp, 1) [1, 3, 0, 0, 0, 10], .received (.modbusTcp, 1) [1, 3, 0, 0, 0, 10]]
        s ∧
      (∀ wraps, IdealBlockMac zeroHmac wraps (logBlockVerify wraps)) ∧
      ∃ c, Traced ChannelStep (fun _ => [])
        ([.sent (.modbusTcp, 1) [1, 3, 0, 0, 0, 10],
          .received (.modbusTcp, 1) [1, 3, 0, 0, 0, 10]] : List PduEvent) c := by
  obtain ⟨s, hrun, -⟩ := exists_run_delivery zeroHmac zeroWrap.key
  exact ⟨s, hrun, idealBlockMac_logBlockVerify, (tunnel_refines_lossyChannel zeroHmac
    logBlockVerify idealBlockMac_logBlockVerify _ _ _ _ _ s hrun).1⟩

/-- Whatever arrives at the egress, no PDU is forwarded to a protected device more often than it
was taken from the frames read at the ingress. -/
theorem tunnel_forwards_at_most_once (H : Hmac)
    (verify : List (HonestWrap H) → NapqesKey → TagCheck)
    (hmac : ∀ wraps, IdealBlockMac H wraps (verify wraps)) (ingressKeys egressKeys : KeyStore)
    (sendCounters recvCounters : SequenceCounter) (es : List PduEvent) (s : Tunnel H)
    (hrun : TunnelRun H verify (.init H ingressKeys egressKeys sendCounters recvCounters) es s) :
    (s.egress.forwarded.map Forwarded.pdu).Subperm ((sentLog es).map Prod.snd) :=
  hrun.forwarded_subperm hmac

/-- The one request is forwarded once. -/
theorem tunnel_forwards_at_most_once_delivery :
    ∃ es s, TunnelRun zeroHmac logBlockVerify
        (.init zeroHmac (fun _ => .ok zeroWrap.key) (fun _ => .ok zeroWrap.key) .new .new) es s ∧
      (∀ wraps, IdealBlockMac zeroHmac wraps (logBlockVerify wraps)) ∧
      s.egress.forwarded.map Forwarded.pdu = [[1, 3, 0, 0, 0, 10]] ∧
      (s.egress.forwarded.map Forwarded.pdu).Subperm ((sentLog es).map Prod.snd) := by
  obtain ⟨s, hrun, hforwarded⟩ := exists_run_delivery zeroHmac zeroWrap.key
  exact ⟨_, s, hrun, idealBlockMac_logBlockVerify, hforwarded, tunnel_forwards_at_most_once
    zeroHmac logBlockVerify idealBlockMac_logBlockVerify _ _ _ _ _ s hrun⟩

end Napqes.Rust
