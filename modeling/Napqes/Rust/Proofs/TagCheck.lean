import Mathlib.Data.Set.Function
import Napqes.Rust.Proofs.OtReplay
import Napqes.Rust.Proofs.Tunnel

/-!
# A tag check that never sees the primes

`IdealBlockMac` names a key with its primes; the code's tags know the sub-key only. As long as the
keys in use differ in their sub-key, as one key alone always does, the results about the receiver,
the egress and the tunnel hold of an ideal MAC that is given a sub-key.
-/

namespace Napqes.Rust

variable {H : Hmac} {keys : Set NapqesKey}

/-- An ideal MAC that sees sub-keys: only the true tag of an input that `wrap_pdu` tagged under
the same sub-key verifies. -/
structure IdealTagCheck (H : Hmac) (wraps : List (HonestWrap H)) (check : TagCheck) : Prop where
  sound : ∀ skFmt input tag, check skFmt input tag = true →
    ∃ w ∈ wraps, w.skFmt = skFmt ∧ input = w.tagInput ∧ tag = (H w.skFmt input).toList

/-- The check that knows what was tagged under each sub-key. -/
def logTagCheck (wraps : List (HonestWrap H)) : TagCheck :=
  fun skFmt input tag => wraps.any fun w =>
    skFmt == w.skFmt && input == w.tagInput && tag == (H w.skFmt input).toList

theorem idealTagCheck_logTagCheck (wraps : List (HonestWrap H)) :
    IdealTagCheck H wraps (logTagCheck wraps) where
  sound skFmt input tag h := by
    simp only [logTagCheck, List.any_eq_true, Bool.and_eq_true, beq_iff_eq] at h
    obtain ⟨w, hw, ⟨hskFmt, hinput⟩, htag⟩ := h
    exact ⟨w, hw, hskFmt.symm, hinput, htag⟩

/-- The keys in use differ in their sub-key. -/
def SubkeysApart (H : Hmac) (keys : Set NapqesKey) : Prop :=
  keys.InjOn fun key => deriveFormatSubkey H key.sk formatBlockV8

theorem subkeysApart_singleton (H : Hmac) (key : NapqesKey) : SubkeysApart H {key} :=
  Set.injOn_singleton _ _

section
open Classical

/-- The check under each of the keys in use; under any other key nothing verifies. -/
noncomputable def perKey (keys : Set NapqesKey) (check : List (HonestWrap H) → TagCheck)
    (wraps : List (HonestWrap H)) (key : NapqesKey) : TagCheck :=
  if key ∈ keys ∧ ∀ w ∈ wraps, w.key ∈ keys then check wraps else fun _ _ _ => false

theorem perKey_eq {check : List (HonestWrap H) → TagCheck} {wraps : List (HonestWrap H)}
    {key : NapqesKey} (hkey : key ∈ keys) (hwraps : ∀ w ∈ wraps, w.key ∈ keys) :
    perKey keys check wraps key = check wraps :=
  if_pos ⟨hkey, hwraps⟩

/-- Among keys that differ in their sub-key, the sub-key of a tag tells the key. -/
theorem idealBlockMac_perKey (hapart : SubkeysApart H keys)
    {check : List (HonestWrap H) → TagCheck} {wraps : List (HonestWrap H)}
    (hcheck : IdealTagCheck H wraps (check wraps)) :
    IdealBlockMac H wraps (perKey keys check wraps) where
  sound key input tag h := by
    unfold perKey at h
    split at h
    case isTrue hin =>
      obtain ⟨hkey, hwraps⟩ := hin
      obtain ⟨w, hw, hskFmt, hinput, htag⟩ := hcheck.sound _ _ _ h
      exact ⟨w, hw, hapart (hwraps w hw) hkey (FixedBytes.ext hskFmt), hinput, htag⟩
    case isFalse => cases h

end

/-- The keys that a store hands out. -/
def KeyStore.Within (store : KeyStore) (keys : Set NapqesKey) : Prop :=
  ∀ deviceId key, store deviceId = .ok key → key ∈ keys

/-! ## The receiver -/

/-- What is accepted under one of the keys in use was sealed under this key. -/
theorem accepted_sealed_of_tagCheck (hapart : SubkeysApart H keys) {wraps : List (HonestWrap H)}
    (hwraps : ∀ w ∈ wraps, w.key ∈ keys) {check : TagCheck}
    (hcheck : IdealTagCheck H wraps check) {counters : SequenceCounter} {s : Receiver}
    (hreach : ReceiverRun H (fun _ => check) (Receiver.init counters) s) {a : Acceptance}
    (ha : a ∈ s.accepted) (hkey : a.key ∈ keys) :
    ∃ w ∈ wraps, w.key = a.key ∧ w.aad = a.aad ∧ w.pdu = a.pdu := by
  obtain ⟨buf, hopen⟩ := ((ReceiverInv.init counters).run hreach).authentic a ha
  have hmac := @idealBlockMac_perKey H keys hapart (fun _ => check) wraps hcheck
  rw [← @perKey_eq H keys (fun _ => check) wraps a.key hkey hwraps] at hopen
  obtain ⟨w, hw, hwkey, haad, hpdu, -⟩ := sealed_of_openPdu hmac hopen
  exact ⟨w, hw, hwkey, haad, hpdu⟩

/-- One key: what is accepted under it was sealed under it, whatever its primes. -/
theorem accepted_sealed_of_one_key {key : NapqesKey} {wraps : List (HonestWrap H)}
    (hwraps : ∀ w ∈ wraps, w.key = key) {check : TagCheck}
    (hcheck : IdealTagCheck H wraps check) {counters : SequenceCounter} {s : Receiver}
    (hreach : ReceiverRun H (fun _ => check) (Receiver.init counters) s) {a : Acceptance}
    (ha : a ∈ s.accepted) (hkey : a.key = key) : ∃ w ∈ wraps, w.aad = a.aad ∧ w.pdu = a.pdu := by
  obtain ⟨w, hw, -, haad, hpdu⟩ := accepted_sealed_of_tagCheck (subkeysApart_singleton H key)
    hwraps hcheck hreach ha hkey
  exact ⟨w, hw, haad, hpdu⟩

/-! ## The egress -/

/-- The keys that the tasks have loaded. -/
def Egress.LoadedWithin (s : Egress) (keys : Set NapqesKey) : Prop :=
  ∀ task ∈ s.tasks, ∀ buf key, task.phase = .loaded buf key → key ∈ keys

/-- A task moves on. -/
theorem Egress.LoadedWithin.setTask {s : Egress} (h : s.LoadedWithin keys) {i : Nat}
    {task : EgressTask} (htask : ∀ buf key, task.phase = .loaded buf key → key ∈ keys) :
    (s.setTask i task).LoadedWithin keys := by
  intro task' hmem
  rcases List.mem_or_eq_of_mem_set hmem with hold | rfl
  · exact h task' hold
  · exact htask

/-- A step loads a key from the store, or none. -/
theorem Egress.LoadedWithin.step {verify : NapqesKey → TagCheck} {s t : Egress}
    {event : EgressEvent} (h : s.LoadedWithin keys) (hstore : s.keyStore.Within keys)
    (hstep : EgressStep H verify event s t) : t.LoadedWithin keys := by
  cases hstep with
  | connect _ protocol stream =>
      intro task htask
      rcases List.mem_append.mp htask with hold | hnew
      · exact h task hold
      · rw [List.mem_singleton.mp hnew]
        intro buf key hphase
        cases hphase
  | install => exact h
  | load _ i task buf rest deviceId key hget hphase hnext hdevice hkey =>
      refine h.setTask ?_
      intro buf' key' hloaded
      cases hloaded
      exact hstore deviceId _ hkey
  | skip _ i task buf rest hget hphase hnext hnokey => exact h.setTask (by simp [hphase])
  | opened _ i task buf key aad pdu hget hphase hopen => exact h.setTask (by simp)
  | openFailed _ i task buf key e hget hphase hopen => exact h.setTask (by simp)
  | accept _ i task key aad pdu counters hget hphase hvalid =>
      exact LoadedWithin.setTask h (by simp)
  | refuse _ i task key aad pdu counters e hget hphase hvalid =>
      exact LoadedWithin.setTask h (by simp)
  | forward _ i task key aad pdu hget hphase => exact LoadedWithin.setTask h (by simp)

/-- A step asks for the check under no key but one that a task has loaded. -/
theorem EgressStep.congr_check {verify verify' : NapqesKey → TagCheck} {s t : Egress}
    {event : EgressEvent} (h : s.LoadedWithin keys)
    (hverify : ∀ key ∈ keys, verify' key = verify key) (hstep : EgressStep H verify event s t) :
    EgressStep H verify' event s t := by
  cases hstep with
  | connect _ protocol stream => exact .connect s protocol stream
  | install _ keyStore => exact .install s keyStore
  | load _ i task buf rest deviceId key hget hphase hnext hdevice hkey =>
      exact .load s i task buf rest deviceId key hget hphase hnext hdevice hkey
  | skip _ i task buf rest hget hphase hnext hnokey =>
      exact .skip s i task buf rest hget hphase hnext hnokey
  | opened _ i task buf key aad pdu hget hphase hopen =>
      have hkey := h task (List.mem_of_getElem? hget) buf key hphase
      exact .opened s i task buf key aad pdu hget hphase ((hverify key hkey).symm ▸ hopen)
  | openFailed _ i task buf key e hget hphase hopen =>
      have hkey := h task (List.mem_of_getElem? hget) buf key hphase
      exact .openFailed s i task buf key e hget hphase ((hverify key hkey).symm ▸ hopen)
  | accept _ i task key aad pdu counters hget hphase hvalid =>
      exact .accept s i task key aad pdu counters hget hphase hvalid
  | refuse _ i task key aad pdu counters e hget hphase hvalid =>
      exact .refuse s i task key aad pdu counters e hget hphase hvalid
  | forward _ i task key aad pdu hget hphase => exact .forward s i task key aad pdu hget hphase

/-- A run in which the store holds only keys in use is a run with a check for each key. -/
theorem EgressRun.perKey {check : TagCheck} {wraps : List (HonestWrap H)}
    (hwraps : ∀ w ∈ wraps, w.key ∈ keys) {condition : Egress → EgressEvent → Prop}
    {keyStore : KeyStore} {counters : SequenceCounter} {s : Egress}
    (hrun : EgressRun H (fun _ => check) (fun a event => condition a event ∧
      a.keyStore.Within keys) (Egress.init keyStore counters) s) :
    EgressRun H (Rust.perKey keys (fun _ => check) wraps) condition
        (Egress.init keyStore counters) s ∧ s.LoadedWithin keys := by
  induction hrun with
  | refl => exact ⟨.refl, fun task htask => by cases htask⟩
  | tail _ hstep ih =>
      obtain ⟨event, hstep, hcondition, hstore⟩ := hstep
      obtain ⟨hrun, hloaded⟩ := ih
      have hstep' := EgressStep.congr_check hloaded
        (fun key hkey => @perKey_eq H keys (fun _ => check) wraps key hkey hwraps) hstep
      exact ⟨hrun.tail ⟨event, hstep', hcondition⟩, hloaded.step hstore hstep⟩

/-- What a task forwards was sealed for the protocol of its listener, if no task takes up an
envelope that was sealed for the other one. -/
theorem forwarded_own_protocol_of_tagCheck (hapart : SubkeysApart H keys)
    {wraps : List (HonestWrap H)} (hwraps : ∀ w ∈ wraps, w.key ∈ keys) {check : TagCheck}
    (hcheck : IdealTagCheck H wraps check) {keyStore : KeyStore} {counters : SequenceCounter}
    {s : Egress} (hrun : EgressRun H (fun _ => check) (fun a event =>
      RoutedByProtocol wraps a event ∧ a.keyStore.Within keys) (Egress.init keyStore counters) s) :
    ∀ f ∈ s.forwarded, ∃ w ∈ wraps, w.pdu = f.pdu ∧ w.aad.protocol = f.protocol := by
  have hmac := @idealBlockMac_perKey H keys hapart (fun _ => check) wraps hcheck
  exact ((ProtocolBound.init keyStore counters).run hmac (hrun.perKey hwraps).1).forwarded

/-! ## The tunnel -/

namespace Tunnel

variable {check : List (HonestWrap H) → TagCheck}

/-- A step with a check that never sees the primes, after which the stores of both gateways hold
only keys in use. -/
def StepWithin (keys : Set NapqesKey) (check : List (HonestWrap H) → TagCheck) (s : Tunnel H)
    (es : List PduEvent) (t : Tunnel H) : Prop :=
  TunnelStep H (fun wraps _ => check wraps) s es t ∧
    t.ingressKeys.Within keys ∧ t.egress.keyStore.Within keys

/-- The gateways work with keys in use only. -/
structure KeysWithin (keys : Set NapqesKey) (s : Tunnel H) : Prop where
  ingressKeys : s.ingressKeys.Within keys
  egressKeys : s.egress.keyStore.Within keys
  wraps : ∀ w ∈ s.wraps, w.key ∈ keys
  loaded : s.egress.LoadedWithin keys

/-- `wrap_pdu` and the egress take their keys from the stores. -/
theorem KeysWithin.step {s t : Tunnel H} {es : List PduEvent} (h : KeysWithin keys s)
    (hstep : StepWithin keys check s es t) : KeysWithin keys t := by
  obtain ⟨hstep, hingress, hegress⟩ := hstep
  refine ⟨hingress, hegress, ?_, ?_⟩
  · cases hstep with
    | wrap i task aad pdu key envelope hget hphase hkey made =>
        intro w hw
        rcases List.mem_append.mp hw with hold | hnew
        · exact h.wraps w hold
        · rw [List.mem_singleton.mp hnew]
          exact h.ingressKeys _ _ hkey
    | connect | install | number | skip | close | drop | forward | egress => exact h.wraps
  · cases hstep with
    | egress event e hstep => exact h.loaded.step h.egressKeys hstep
    | connect | install | number | skip | close | wrap | drop | forward => exact h.loaded

/-- Such a step is a step with a check for each key. -/
theorem KeysWithin.perKey_step {s t : Tunnel H} {es : List PduEvent} (h : KeysWithin keys s)
    (hstep : StepWithin keys check s es t) : TunnelStep H (perKey keys check) s es t := by
  obtain ⟨hstep, -, -⟩ := hstep
  cases hstep with
  | connect protocol reads => exact .connect s protocol reads
  | install ingressKeys => exact .install s ingressKeys
  | number i task frame reads deviceId pdu seq counters hget hphase hreads hne hpdu hseq =>
      exact .number s i task frame reads deviceId pdu seq counters hget hphase hreads hne hpdu hseq
  | skip i task frame reads hget hphase hreads hne hpdu =>
      exact .skip s i task frame reads hget hphase hreads hne hpdu
  | close i task reads hget hphase hreads => exact .close s i task reads hget hphase hreads
  | wrap i task aad pdu key envelope hget hphase hkey made =>
      exact .wrap s i task aad pdu key envelope hget hphase hkey made
  | drop i task aad pdu hget hphase hfails => exact .drop s i task aad pdu hget hphase hfails
  | forward i task frame hget hphase => exact .forward s i task frame hget hphase
  | egress event e hstep =>
      exact .egress s event e
        (hstep.congr_check h.loaded fun key hkey => perKey_eq hkey h.wraps)

/-- A run with keys in use only is a run with a check for each key. -/
theorem forwardSimulation_perKey : ForwardSimulation (StepWithin keys check)
    (TunnelStep H (perKey keys check)) fun s t => t = s ∧ KeysWithin keys s := by
  rintro s es t hstep a ⟨rfl, hs⟩
  exact ⟨t, .single (hs.perKey_step hstep), rfl, hs.step hstep⟩

/-- The tunnel under a check that never sees the primes refines a lossy channel, and no PDU is
forwarded more often than it was numbered. -/
theorem refines_lossyChannel_of_tagCheck (hapart : SubkeysApart H keys)
    (hcheck : ∀ wraps, IdealTagCheck H wraps (check wraps)) {ingressKeys egressKeys : KeyStore}
    (hingress : ingressKeys.Within keys) (hegress : egressKeys.Within keys)
    {sendCounters recvCounters : SequenceCounter} {es : List PduEvent} {s : Tunnel H}
    (hrun : Traced (StepWithin keys check)
      (Tunnel.init H ingressKeys egressKeys sendCounters recvCounters) es s) :
    (∃ c, Traced ChannelStep (fun _ => []) es c) ∧
      (s.egress.forwarded.map Forwarded.pdu).Subperm ((sentLog es).map Prod.snd) := by
  have hinit : KeysWithin keys
      (Tunnel.init H ingressKeys egressKeys sendCounters recvCounters) :=
    ⟨hingress, hegress, fun w hw => absurd hw List.not_mem_nil,
      fun task htask => absurd htask List.not_mem_nil⟩
  obtain ⟨t, hrun', rfl, -⟩ := forwardSimulation_perKey.traced hrun ⟨rfl, hinit⟩
  have hmac := fun wraps => idealBlockMac_perKey hapart (hcheck wraps)
  exact ⟨TunnelRun.exists_channel hmac hrun', TunnelRun.forwarded_subperm hmac hrun'⟩

end Tunnel

end Napqes.Rust
