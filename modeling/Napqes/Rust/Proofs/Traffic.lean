import Napqes.Rust.Proofs.Transport
import Napqes.Rust.Traffic

/-!
# The replay check on concurrent traffic

Every envelope authenticates, and no number of a device is given out twice. Whether an envelope
is accepted depends on the order in which the numbers are checked: it is, unless one with a higher
number of the same device was checked before it.
-/

namespace Napqes.Rust

variable {H : Hmac} {key : NapqesKey}

namespace Traffic

variable {s t : Traffic} {i : Nat}

/-! ## What the actions do -/

theorem step_connect {protocol : ProtocolId} {reads : List (List UInt8)}
    (h : step H key s (.connect protocol reads) = some t) :
    t = { s with ingress := s.ingress ++ [{ protocol, reads, phase := .reading }] } := by
  cases h
  rfl

/-- A number is drawn for the frame, or the frame is skipped. -/
theorem step_number (h : step H key s (.number i) = some t) :
    ∃ task reads, s.ingress[i]? = some task ∧ task.phase = .reading ∧
      (t = s.setIngress i { task with reads } ∨
        ∃ deviceId pdu seq counters,
          s.sendCounters.nextSeq task.protocol deviceId = .ok (seq, counters) ∧
          t = { s.setIngress i { task with
              reads
              phase := .numbered { protocol := task.protocol, deviceId, seq } pdu } with
            sendCounters := counters }) := by
  obtain ⟨task, htask, h⟩ := Option.bind_eq_some_iff.mp h
  split at h
  case h_2 => cases h
  case h_1 frame reads hphase hreads =>
    split at h
    case isTrue =>
      cases h
      exact ⟨task, [], htask, hphase, Or.inl rfl⟩
    case isFalse =>
      split at h
      case h_1 =>
        cases h
        exact ⟨task, reads, htask, hphase, Or.inl rfl⟩
      case h_2 deviceId pdu hpdu =>
        obtain ⟨⟨seq, counters⟩, hseq, h⟩ := Option.bind_eq_some_iff.mp h
        cases h
        refine ⟨task, reads, htask, hphase, Or.inr ⟨deviceId, pdu, seq, counters, ?_, rfl⟩⟩
        cases hnext : s.sendCounters.nextSeq task.protocol deviceId with
        | error e =>
            rw [hnext] at hseq
            cases hseq
        | ok next =>
            rw [hnext] at hseq
            cases hseq
            rfl

/-- The frame is sealed or dropped. -/
theorem step_wrap (h : step H key s (.wrap i) = some t) :
    ∃ task aad pdu, s.ingress[i]? = some task ∧ task.phase = .numbered aad pdu ∧
      ((∃ envelope, wrapPdu H pdu aad key = .ok envelope ∧
        t = s.setIngress i { task with phase := .sealed { aad, pdu, envelope } }) ∨
      t = s.setIngress i { task with phase := .reading }) := by
  obtain ⟨task, htask, h⟩ := Option.bind_eq_some_iff.mp h
  split at h
  case h_2 => cases h
  case h_1 aad pdu hphase =>
    refine ⟨task, aad, pdu, htask, hphase, ?_⟩
    split at h
    case h_1 envelope hwrap =>
      cases h
      exact Or.inl ⟨envelope, hwrap, rfl⟩
    case h_2 =>
      cases h
      exact Or.inr rfl
    case h_3 => cases h

theorem step_forward (h : step H key s (.forward i) = some t) :
    ∃ task frame, s.ingress[i]? = some task ∧ task.phase = .sealed frame ∧
      t = { s.setIngress i { task with phase := .reading } with link := s.link ++ [frame] } := by
  obtain ⟨task, htask, h⟩ := Option.bind_eq_some_iff.mp h
  split at h
  case h_2 => cases h
  case h_1 frame hphase =>
    cases h
    exact ⟨task, frame, htask, hphase, rfl⟩

theorem step_arrive (h : step H key s (.arrive i) = some t) :
    ∃ frame, s.link[i]? = some frame ∧
      t = { s with
        link := s.link.eraseIdx i
        egress := s.egress ++ [{ frame, status := .started }] } := by
  obtain ⟨frame, hframe, h⟩ := Option.bind_eq_some_iff.mp h
  cases h
  exact ⟨frame, hframe, rfl⟩

theorem step_unwrap (h : step H key s (.unwrap i) = some t) :
    ∃ conn, s.egress[i]? = some conn ∧ conn.status = .started ∧
      ((∃ aad pdu, openPdu H (hmacVerify H) conn.frame.envelope key = .ok (aad, pdu) ∧
        t = s.setStatus i conn (.opened aad pdu)) ∨
      ∃ e, openPdu H (hmacVerify H) conn.frame.envelope key = .error e ∧
        t = s.returns i conn s.recvCounters (.error e)) := by
  obtain ⟨conn, hconn, h⟩ := Option.bind_eq_some_iff.mp h
  split at h
  case h_2 => cases h
  case h_1 hstatus =>
    refine ⟨conn, hconn, hstatus, ?_⟩
    split at h
    case h_1 aad pdu hopen =>
      cases h
      exact Or.inl ⟨aad, pdu, hopen, rfl⟩
    case h_2 e hopen =>
      cases h
      exact Or.inr ⟨e, hopen, rfl⟩

theorem step_validate (h : step H key s (.validate i) = some t) :
    ∃ conn aad pdu, s.egress[i]? = some conn ∧ conn.status = .opened aad pdu ∧
      ((∃ counters,
        s.recvCounters.validateRecv aad.protocol aad.deviceId aad.seq = (.ok ⟨⟩, counters) ∧
        t = s.returns i conn counters (.ok pdu)) ∨
      ∃ e counters,
        s.recvCounters.validateRecv aad.protocol aad.deviceId aad.seq = (.error e, counters) ∧
        t = s.returns i conn counters (.error e)) := by
  obtain ⟨conn, hconn, h⟩ := Option.bind_eq_some_iff.mp h
  split at h
  case h_2 => cases h
  case h_1 aad pdu hstatus =>
    refine ⟨conn, aad, pdu, hconn, hstatus, ?_⟩
    split at h
    case h_1 counters hvalid =>
      cases h
      exact Or.inl ⟨counters, hvalid, rfl⟩
    case h_2 e counters hvalid =>
      cases h
      exact Or.inr ⟨e, counters, hvalid, rfl⟩

/-! ## The numbers in use -/

/-- The number of a task's frame, if it has one. -/
def phaseNumbers : IngressPhase → Multiset (DeviceKey × UInt64)
  | .reading => 0
  | .numbered aad _ => {(aad.device, aad.seq)}
  | .sealed frame => {(frame.aad.device, frame.aad.seq)}

/-- The number of a task's envelope, until `unwrap_pdu` has returned. -/
def connNumbers (conn : EgressConn) : Multiset (DeviceKey × UInt64) :=
  match conn.status with
  | .returned _ => 0
  | _ => {(conn.frame.aad.device, conn.frame.aad.seq)}

def ingressNumbers (tasks : List IngressTask) : Multiset (DeviceKey × UInt64) :=
  (tasks.map fun task => phaseNumbers task.phase).sum

def linkNumbers (link : List SealedPdu) : Multiset (DeviceKey × UInt64) :=
  (link.map fun frame => {(frame.aad.device, frame.aad.seq)}).sum

def egressNumbers (conns : List EgressConn) : Multiset (DeviceKey × UInt64) :=
  (conns.map connNumbers).sum

def resultNumbers (results : List (SealedPdu × RustM FrameError (List UInt8))) :
    Multiset (DeviceKey × UInt64) :=
  linkNumbers (results.map Prod.fst)

/-- The numbers of all frames: at the ingress tasks, on the link, at the egress tasks, and
decided. -/
def numbers (s : Traffic) : Multiset (DeviceKey × UInt64) :=
  ingressNumbers s.ingress + linkNumbers s.link + egressNumbers s.egress + resultNumbers s.results

/-- One element of a list gives way to another. -/
theorem sum_map_set {α β : Type} {l : List α} {i : Nat} {x : α} (h : l[i]? = some x) (y : α)
    (f : α → Multiset β) : ((l.set i y).map f).sum + f x = (l.map f).sum + f y := by
  induction l generalizing i with
  | nil => cases h
  | cons z l ih =>
      cases i with
      | zero =>
          obtain rfl := Option.some.inj h
          simp only [List.set_cons_zero, List.map_cons, List.sum_cons]
          abel
      | succ i =>
          simp only [List.set_cons_succ, List.map_cons, List.sum_cons]
          rw [add_assoc, ih h, ← add_assoc]

/-- One element is taken out of a list. -/
theorem sum_map_eraseIdx {α β : Type} {l : List α} {i : Nat} {x : α} (h : l[i]? = some x)
    (f : α → Multiset β) : ((l.eraseIdx i).map f).sum + f x = (l.map f).sum := by
  induction l generalizing i with
  | nil => cases h
  | cons z l ih =>
      cases i with
      | zero =>
          obtain rfl := Option.some.inj h
          simp only [List.eraseIdx_cons_zero, List.map_cons, List.sum_cons]
          exact add_comm ..
      | succ i =>
          simp only [List.eraseIdx_cons_succ, List.map_cons, List.sum_cons]
          rw [add_assoc, ih h]

theorem le_sum_map {α β : Type} {l : List α} {x : α} (h : x ∈ l) (f : α → Multiset β) :
    f x ≤ (l.map f).sum := by
  obtain ⟨i, hi⟩ := List.getElem?_of_mem h
  rw [← sum_map_eraseIdx hi f]
  exact Multiset.le_add_left _ _

theorem linkNumbers_append (link : List SealedPdu) (frame : SealedPdu) :
    linkNumbers (link ++ [frame]) = linkNumbers link + {(frame.aad.device, frame.aad.seq)} := by
  simp only [linkNumbers, List.map_append, List.map_cons, List.map_nil, List.sum_append,
    List.sum_cons, List.sum_nil, add_zero]

theorem resultNumbers_append (results : List (SealedPdu × RustM FrameError (List UInt8)))
    (frame : SealedPdu) (result : RustM FrameError (List UInt8)) :
    resultNumbers (results ++ [(frame, result)]) =
      resultNumbers results + {(frame.aad.device, frame.aad.seq)} := by
  rw [resultNumbers, List.map_append]
  exact linkNumbers_append _ frame

theorem numbers_setIngress {task : IngressTask} (h : s.ingress[i]? = some task)
    (task' : IngressTask) :
    (s.setIngress i task').numbers + phaseNumbers task.phase =
      s.numbers + phaseNumbers task'.phase := by
  have hsum : ingressNumbers (s.ingress.set i task') + phaseNumbers task.phase =
      ingressNumbers s.ingress + phaseNumbers task'.phase :=
    sum_map_set h task' fun task => phaseNumbers task.phase
  calc _ = ingressNumbers (s.ingress.set i task') + phaseNumbers task.phase +
        (linkNumbers s.link + egressNumbers s.egress + resultNumbers s.results) := by
          rw [numbers, setIngress]
          abel
    _ = _ := by
          rw [hsum, numbers]
          abel

theorem numbers_setStatus {conn : EgressConn} (h : s.egress[i]? = some conn)
    (status : CallStatus) :
    (s.setStatus i conn status).numbers + connNumbers conn =
      s.numbers + connNumbers { conn with status } := by
  have hsum : egressNumbers (s.egress.set i { conn with status }) + connNumbers conn =
      egressNumbers s.egress + connNumbers { conn with status } :=
    sum_map_set h { conn with status } connNumbers
  calc _ = egressNumbers (s.egress.set i { conn with status }) + connNumbers conn +
        (ingressNumbers s.ingress + linkNumbers s.link + resultNumbers s.results) := by
          rw [numbers, setStatus]
          abel
    _ = _ := by
          rw [hsum, numbers]
          abel

/-- The number of a returned envelope is among the decided ones. -/
theorem numbers_returns {conn : EgressConn} (h : s.egress[i]? = some conn)
    (hconn : connNumbers conn = {(conn.frame.aad.device, conn.frame.aad.seq)})
    (counters : SequenceCounter) (result : RustM FrameError (List UInt8)) :
    (s.returns i conn counters result).numbers = s.numbers := by
  have hstatus := numbers_setStatus h (.returned result)
  rw [hconn] at hstatus
  calc _ = (s.setStatus i conn (.returned result)).numbers +
        {(conn.frame.aad.device, conn.frame.aad.seq)} := by
          simp only [numbers, returns, resultNumbers_append]
          exact (add_assoc _ _ _).symm
    _ = _ := by
          rw [hstatus]
          exact add_zero _

/-- A step gives out one number, or none. -/
theorem numbers_step {a : TrafficAction} (h : step H key s a = some t) :
    (t.numbers ≤ s.numbers ∧ t.sendCounters = s.sendCounters) ∨
      ∃ protocol deviceId seq counters,
        s.sendCounters.nextSeq protocol deviceId = .ok (seq, counters) ∧
        t.sendCounters = counters ∧ t.numbers = s.numbers + {((protocol, deviceId), seq)} := by
  cases a with
  | connect protocol reads =>
      obtain rfl := step_connect h
      refine Or.inl ⟨le_of_eq ?_, rfl⟩
      simp only [numbers, ingressNumbers, List.map_append, List.sum_append, List.map_cons,
        List.map_nil, List.sum_cons, List.sum_nil, phaseNumbers, add_zero]
  | number i =>
      obtain ⟨task, reads, htask, hphase, hnext⟩ := step_number h
      rcases hnext with rfl | ⟨deviceId, pdu, seq, counters, hseq, rfl⟩
      · have hsame := numbers_setIngress htask { task with reads }
        exact Or.inl ⟨le_of_eq (add_right_cancel hsame), rfl⟩
      · refine Or.inr ⟨task.protocol, deviceId, seq, counters, hseq, rfl, ?_⟩
        have hnew := numbers_setIngress htask { task with
          reads, phase := .numbered { protocol := task.protocol, deviceId, seq } pdu }
        rw [hphase] at hnew
        exact (add_zero _).symm.trans hnew
  | wrap i =>
      obtain ⟨task, aad, pdu, htask, hphase, hnext⟩ := step_wrap h
      rcases hnext with ⟨envelope, -, rfl⟩ | rfl
      · have hsame := numbers_setIngress htask { task with
          phase := .sealed { aad, pdu, envelope } }
        rw [hphase] at hsame
        exact Or.inl ⟨le_of_eq (add_right_cancel hsame), rfl⟩
      · have hless := numbers_setIngress htask { task with phase := .reading }
        refine Or.inl ⟨?_, rfl⟩
        calc _ ≤ _ + phaseNumbers task.phase := Multiset.le_add_right _ _
          _ = s.numbers := hless.trans (add_zero _)
  | forward i =>
      obtain ⟨task, frame, htask, hphase, rfl⟩ := step_forward h
      have hmoved := numbers_setIngress htask { task with phase := .reading }
      rw [hphase] at hmoved
      refine Or.inl ⟨le_of_eq ?_, rfl⟩
      calc _ = (s.setIngress i { task with phase := .reading }).numbers +
            {(frame.aad.device, frame.aad.seq)} := by
              simp only [numbers, linkNumbers_append, setIngress]
              abel
        _ = _ := hmoved.trans (add_zero _)
  | arrive i =>
      obtain ⟨frame, hframe, rfl⟩ := step_arrive h
      have hlink : linkNumbers (s.link.eraseIdx i) + {(frame.aad.device, frame.aad.seq)} =
          linkNumbers s.link := sum_map_eraseIdx hframe _
      have hegress : egressNumbers (s.egress ++ [{ frame, status := .started }]) =
          egressNumbers s.egress + {(frame.aad.device, frame.aad.seq)} := by
        simp only [egressNumbers, List.map_append, List.map_cons, List.map_nil, List.sum_append,
          List.sum_cons, List.sum_nil, add_zero, connNumbers]
      refine Or.inl ⟨le_of_eq ?_, rfl⟩
      rw [numbers, numbers, hegress, ← hlink]
      abel
  | unwrap i =>
      obtain ⟨conn, hconn, hstatus, hnext⟩ := step_unwrap h
      have hnumber : connNumbers conn = {(conn.frame.aad.device, conn.frame.aad.seq)} := by
        rw [connNumbers, hstatus]
      rcases hnext with ⟨aad, pdu, -, rfl⟩ | ⟨e, -, rfl⟩
      · have hsame := numbers_setStatus hconn (.opened aad pdu)
        rw [hnumber] at hsame
        exact Or.inl ⟨le_of_eq (add_right_cancel hsame), rfl⟩
      · exact Or.inl ⟨le_of_eq (numbers_returns hconn hnumber _ _), rfl⟩
  | validate i =>
      obtain ⟨conn, aad, pdu, hconn, hstatus, hnext⟩ := step_validate h
      have hnumber : connNumbers conn = {(conn.frame.aad.device, conn.frame.aad.seq)} := by
        rw [connNumbers, hstatus]
      rcases hnext with ⟨counters, -, rfl⟩ | ⟨e, counters, -, rfl⟩
      · exact Or.inl ⟨le_of_eq (numbers_returns hconn hnumber _ _), rfl⟩
      · exact Or.inl ⟨le_of_eq (numbers_returns hconn hnumber _ _), rfl⟩

/-- No number of a device is in use twice, and each was given out. -/
structure Distinct (s : Traffic) : Prop where
  nodup : s.numbers.Nodup
  given : ∀ n ∈ s.numbers, 0 < n.2 ∧ n.2 ≤ s.sendCounters.lastSent n.1

theorem Distinct.init : Distinct init := by
  have hnil : Traffic.init.numbers = 0 := rfl
  refine ⟨?_, ?_⟩
  · rw [hnil]
    exact Multiset.nodup_zero
  · intro n hn
    rw [hnil] at hn
    exact absurd hn (Multiset.notMem_zero n)

theorem Distinct.step (hs : Distinct s) {a : TrafficAction}
    (h : Traffic.step H key s a = some t) : Distinct t := by
  rcases numbers_step h with ⟨hle, hcounters⟩ | ⟨protocol, deviceId, seq, counters, hseq, rfl, hnew⟩
  · refine ⟨Multiset.nodup_of_le hle hs.nodup, ?_⟩
    intro n hn
    rw [hcounters]
    exact hs.given n (Multiset.mem_of_le hle hn)
  · obtain ⟨hlt, hvalue, -⟩ := nextSeq_eq_ok_iff.mp hseq
    have hsucc : (s.sendCounters.lastSent (protocol, deviceId) + 1).toNat =
        (s.sendCounters.lastSent (protocol, deviceId)).toNat + 1 := by
      rw [UInt64.toNat_add, UInt64.toNat_one, Nat.mod_eq_of_lt hlt]
    have hgrown : seq = t.sendCounters.lastSent (protocol, deviceId) := by
      apply UInt64.toNat_inj.mp
      rw [lastSent_of_nextSeq hseq deviceId, if_pos rfl, hvalue, hsucc]
    refine ⟨?_, ?_⟩
    · rw [hnew, add_comm, Multiset.singleton_add, Multiset.nodup_cons]
      refine ⟨?_, hs.nodup⟩
      intro hmem
      have hle := (hs.given _ hmem).2
      rw [hvalue, UInt64.le_iff_toNat_le, hsucc] at hle
      exact absurd hle (Nat.not_succ_le_self _)
    · intro n hn
      rw [hnew, Multiset.mem_add, Multiset.mem_singleton] at hn
      rcases hn with hold | rfl
      · obtain ⟨hpos, hle⟩ := hs.given n hold
        exact ⟨hpos, UInt64.le_trans hle (lastSent_le_of_nextSeq hseq n.1)⟩
      · refine ⟨?_, ?_⟩
        · rw [hvalue, UInt64.lt_iff_toNat_lt, hsucc]
          exact Nat.succ_pos _
        · exact hgrown ▸ UInt64.le_refl _

/-! ## Genuine envelopes -/

/-- Every envelope was sealed with the key, and what an egress task has opened is what was
sealed. -/
structure Genuine (H : Hmac) (key : NapqesKey) (s : Traffic) : Prop where
  ingress : ∀ task ∈ s.ingress, ∀ f, task.phase = .sealed f →
    wrapPdu H f.pdu f.aad key = .ok f.envelope
  link : ∀ f ∈ s.link, wrapPdu H f.pdu f.aad key = .ok f.envelope
  egress : ∀ c ∈ s.egress, wrapPdu H c.frame.pdu c.frame.aad key = .ok c.frame.envelope ∧
    ∀ aad pdu, c.status = .opened aad pdu → aad = c.frame.aad ∧ pdu = c.frame.pdu

theorem Genuine.init (H : Hmac) (key : NapqesKey) : Genuine H key init where
  ingress _ h := absurd h List.not_mem_nil
  link _ h := absurd h List.not_mem_nil
  egress _ h := absurd h List.not_mem_nil

theorem openPdu_sealed {f : SealedPdu} (h : wrapPdu H f.pdu f.aad key = .ok f.envelope) :
    openPdu H (hmacVerify H) f.envelope key = .ok (f.aad, f.pdu) := by
  let w : HonestWrap H := ⟨key, f.aad, f.pdu, f.envelope, h⟩
  have hopen := w.openPdu_envelope (hmacVerify_self H _ _) []
  rw [List.append_nil] at hopen
  exact hopen

section
variable (hs : Genuine H key s)
include hs

theorem Genuine.setIngress {task : IngressTask}
    (htask : ∀ f, task.phase = .sealed f → wrapPdu H f.pdu f.aad key = .ok f.envelope) :
    Genuine H key (s.setIngress i task) where
  ingress := by
    intro task' hmem f hf
    rcases List.mem_or_eq_of_mem_set hmem with hold | rfl
    · exact hs.ingress task' hold f hf
    · exact htask f hf
  link := hs.link
  egress := hs.egress

theorem Genuine.setStatus {conn : EgressConn} (hconn : s.egress[i]? = some conn)
    {status : CallStatus} (hstatus : ∀ aad pdu, status = .opened aad pdu →
      aad = conn.frame.aad ∧ pdu = conn.frame.pdu) :
    Genuine H key (s.setStatus i conn status) where
  ingress := hs.ingress
  link := hs.link
  egress := by
    intro c hmem
    rcases List.mem_or_eq_of_mem_set hmem with hold | rfl
    · exact hs.egress c hold
    · exact ⟨(hs.egress conn (List.mem_of_getElem? hconn)).1, hstatus⟩

theorem Genuine.returns {conn : EgressConn} (hconn : s.egress[i]? = some conn)
    (counters : SequenceCounter) (result : RustM FrameError (List UInt8)) :
    Genuine H key (s.returns i conn counters result) := by
  have hreturned : Genuine H key (s.setStatus i conn (.returned result)) := by
    apply hs.setStatus hconn
    intro aad pdu hstatus
    cases hstatus
  exact ⟨hreturned.ingress, hreturned.link, hreturned.egress⟩

theorem Genuine.step {a : TrafficAction} (h : Traffic.step H key s a = some t) :
    Genuine H key t := by
  cases a with
  | connect protocol reads =>
      obtain rfl := step_connect h
      refine ⟨?_, hs.link, hs.egress⟩
      intro task hmem f hf
      rcases List.mem_append.mp hmem with hold | hnew
      · exact hs.ingress task hold f hf
      · obtain rfl := List.mem_singleton.mp hnew
        cases hf
  | number i =>
      obtain ⟨task, reads, -, hphase, hnext⟩ := step_number h
      rcases hnext with rfl | ⟨deviceId, pdu, seq, counters, -, rfl⟩
      · apply hs.setIngress
        intro f hf
        rw [show task.phase = .sealed f from hf] at hphase
        cases hphase
      · have hnumbered := @Genuine.setIngress H key s i hs { task with
          reads, phase := .numbered { protocol := task.protocol, deviceId, seq } pdu } (by
            intro f hf
            cases hf)
        exact ⟨hnumbered.ingress, hnumbered.link, hnumbered.egress⟩
  | wrap i =>
      obtain ⟨task, aad, pdu, -, -, hnext⟩ := step_wrap h
      rcases hnext with ⟨envelope, hwrap, rfl⟩ | rfl
      · apply hs.setIngress
        intro f hf
        cases hf
        exact hwrap
      · apply hs.setIngress
        intro f hf
        cases hf
  | forward i =>
      obtain ⟨task, frame, htask, hphase, rfl⟩ := step_forward h
      have hread := @Genuine.setIngress H key s i hs { task with phase := .reading } (by
        intro f hf
        cases hf)
      refine ⟨hread.ingress, ?_, hread.egress⟩
      intro f hmem
      rcases List.mem_append.mp hmem with hold | hnew
      · exact hs.link f hold
      · obtain rfl := List.mem_singleton.mp hnew
        exact hs.ingress task (List.mem_of_getElem? htask) f hphase
  | arrive i =>
      obtain ⟨frame, hframe, rfl⟩ := step_arrive h
      refine ⟨hs.ingress, fun f hmem => hs.link f (List.mem_of_mem_eraseIdx hmem), ?_⟩
      intro c hmem
      rcases List.mem_append.mp hmem with hold | hnew
      · exact hs.egress c hold
      · obtain rfl := List.mem_singleton.mp hnew
        refine ⟨hs.link frame (List.mem_of_getElem? hframe), ?_⟩
        intro aad pdu hstatus
        cases hstatus
  | unwrap i =>
      obtain ⟨conn, hconn, -, hnext⟩ := step_unwrap h
      rcases hnext with ⟨aad, pdu, hopen, rfl⟩ | ⟨e, -, rfl⟩
      · apply hs.setStatus hconn
        intro aad' pdu' hstatus
        cases hstatus
        have hgenuine := (hs.egress conn (List.mem_of_getElem? hconn)).1
        rw [openPdu_sealed hgenuine] at hopen
        cases hopen
        exact ⟨rfl, rfl⟩
      · exact hs.returns hconn _ _
  | validate i =>
      obtain ⟨conn, aad, pdu, hconn, -, hnext⟩ := step_validate h
      rcases hnext with ⟨counters, -, rfl⟩ | ⟨e, counters, -, rfl⟩
      · exact hs.returns hconn _ _
      · exact hs.returns hconn _ _

end

/-! ## What `unwrap_pdu` returns -/

/-- What `unwrap_pdu` returns for an envelope, given what it returned before. -/
def Outcome (before : List (SealedPdu × RustM FrameError (List UInt8))) (f : SealedPdu)
    (result : RustM FrameError (List UInt8)) : Prop :=
  (result = .ok f.pdu ↔
      ∀ g ∈ before, g.1.aad.device = f.aad.device → g.1.aad.seq < f.aad.seq) ∧
    (result ≠ .ok f.pdu → ∃ g ∈ before, g.2 = .ok g.1.pdu ∧ g.1.aad.device = f.aad.device ∧
      f.aad.seq < g.1.aad.seq ∧ result =
        err (.replayDetected f.aad.deviceId f.aad.protocol f.aad.seq g.1.aad.seq))

/-- The last number seen from a device is the highest of those decided, and was accepted. -/
structure Decided (s : Traffic) : Prop where
  highest : ∀ g ∈ s.results, g.1.aad.seq ≤ s.recvCounters.lastSeen g.1.aad.device
  accepted : ∀ device, s.recvCounters.lastSeen device = 0 ∨
    ∃ g ∈ s.results, g.2 = .ok g.1.pdu ∧ g.1.aad.device = device ∧
      g.1.aad.seq = s.recvCounters.lastSeen device
  outcome : ∀ (i : Nat) f r, s.results[i]? = some (f, r) → Outcome (s.results.take i) f r

theorem Decided.init : Decided init where
  highest _ h := absurd h List.not_mem_nil
  accepted _ := Or.inl rfl
  outcome i f r h := by cases h

theorem Decided.congr (hs : Decided s) (hresults : t.results = s.results)
    (hcounters : t.recvCounters = s.recvCounters) : Decided t := by
  refine ⟨?_, ?_, ?_⟩
  · rw [hresults, hcounters]
    exact hs.highest
  · rw [hresults, hcounters]
    exact hs.accepted
  · rw [hresults]
    exact hs.outcome

/-- One more outcome. -/
theorem outcome_append {results : List (SealedPdu × RustM FrameError (List UInt8))}
    (hold : ∀ (i : Nat) f r, results[i]? = some (f, r) → Outcome (results.take i) f r)
    {f : SealedPdu} {r : RustM FrameError (List UInt8)} (hnew : Outcome results f r) (i : Nat)
    (g : SealedPdu) (r' : RustM FrameError (List UInt8))
    (hget : (results ++ [(f, r)])[i]? = some (g, r')) :
    Outcome ((results ++ [(f, r)]).take i) g r' := by
  by_cases hi : i < results.length
  · rw [List.getElem?_append_left hi] at hget
    rw [List.take_append_of_le_length (Nat.le_of_lt hi)]
    exact hold i g r' hget
  · have hlen : i = results.length := by
      have hlt := (List.getElem?_eq_some_iff.mp hget).1
      rw [List.length_append, List.length_singleton] at hlt
      omega
    subst hlen
    rw [List.getElem?_append_right (Nat.le_refl _), Nat.sub_self] at hget
    cases hget
    rw [List.take_left' rfl]
    exact hnew

/-- The envelope's number is new. -/
theorem Decided.accept (hs : Decided s) {conn : EgressConn} {counters : SequenceCounter}
    (hvalid : s.recvCounters.validateRecv conn.frame.aad.protocol conn.frame.aad.deviceId
      conn.frame.aad.seq = (.ok ⟨⟩, counters)) :
    Decided (s.returns i conn counters (.ok conn.frame.pdu)) := by
  obtain ⟨hlt, hlast⟩ := lastSeen_of_validateRecv_ok hvalid
  have hnew : ∀ g ∈ s.results, g.1.aad.device = conn.frame.aad.device →
      g.1.aad.seq < conn.frame.aad.seq := by
    intro g hg hdevice
    have hle := hs.highest g hg
    rw [hdevice] at hle
    exact UInt64.lt_of_le_of_lt hle hlt
  refine ⟨?_, ?_, outcome_append hs.outcome ⟨iff_of_true rfl hnew, fun hne => absurd rfl hne⟩⟩
  · intro g hg
    show _ ≤ counters.lastSeen _
    rw [hlast]
    rcases List.mem_append.mp hg with hold | hlastly
    · by_cases hdevice : g.1.aad.device = conn.frame.aad.device
      · rw [hdevice, Function.update_self]
        exact UInt64.le_of_lt (hnew g hold hdevice)
      · rw [Function.update_of_ne hdevice]
        exact hs.highest g hold
    · obtain rfl := List.mem_singleton.mp hlastly
      rw [Function.update_self]
      exact UInt64.le_refl _
  · intro device
    show counters.lastSeen device = 0 ∨ ∃ g ∈ _, _ ∧ _ ∧ _ = counters.lastSeen device
    rw [hlast]
    by_cases hdevice : device = conn.frame.aad.device
    · right
      refine ⟨_, List.mem_append_right _ List.mem_cons_self, rfl, hdevice.symm, ?_⟩
      rw [hdevice, Function.update_self]
    · rw [Function.update_of_ne hdevice]
      rcases hs.accepted device with hzero | ⟨g, hg, hrest⟩
      · exact Or.inl hzero
      · exact Or.inr ⟨g, List.mem_append_left _ hg, hrest⟩

/-- The number of an envelope still to be decided is none of the decided ones. -/
theorem Distinct.ne_of_mem_results (hs : Distinct s) {conn : EgressConn} (hmem : conn ∈ s.egress)
    (hconn : connNumbers conn = {(conn.frame.aad.device, conn.frame.aad.seq)})
    {g : SealedPdu × RustM FrameError (List UInt8)} (hg : g ∈ s.results)
    (hdevice : g.1.aad.device = conn.frame.aad.device) : g.1.aad.seq ≠ conn.frame.aad.seq := by
  intro hseq
  have hpending : (conn.frame.aad.device, conn.frame.aad.seq) ∈ egressNumbers s.egress := by
    apply Multiset.mem_of_le (le_sum_map hmem connNumbers)
    rw [hconn]
    exact Multiset.mem_singleton_self _
  have hdecided : (conn.frame.aad.device, conn.frame.aad.seq) ∈ resultNumbers s.results := by
    apply Multiset.mem_of_le (le_sum_map (List.mem_map_of_mem hg)
      fun frame : SealedPdu => {(frame.aad.device, frame.aad.seq)})
    rw [hdevice, hseq]
    exact Multiset.mem_singleton_self _
  have hdisjoint := (Multiset.nodup_add.mp hs.nodup).2.2
  exact Multiset.disjoint_left.mp hdisjoint (Multiset.mem_add.mpr (Or.inr hpending)) hdecided

/-- A higher number of the device was accepted before. -/
theorem Decided.refuse (hs : Decided s) (hdistinct : Distinct s) {conn : EgressConn}
    (hmem : conn ∈ s.egress)
    (hconn : connNumbers conn = {(conn.frame.aad.device, conn.frame.aad.seq)})
    {counters : SequenceCounter} {e : Fault FrameError}
    (hvalid : s.recvCounters.validateRecv conn.frame.aad.protocol conn.frame.aad.deviceId
      conn.frame.aad.seq = (.error e, counters)) :
    Decided (s.returns i conn counters (.error e)) := by
  have hlast := lastSeen_of_validateRecv_error hvalid
  obtain ⟨hle, rfl⟩ := validateRecv_eq_error hvalid
  have hpos : 0 < conn.frame.aad.seq := by
    refine (hdistinct.given (conn.frame.aad.device, conn.frame.aad.seq) ?_).1
    have hpending := le_sum_map hmem connNumbers
    rw [hconn] at hpending
    apply Multiset.mem_add.mpr
    left
    apply Multiset.mem_add.mpr
    right
    exact Multiset.mem_of_le hpending (Multiset.mem_singleton_self _)
  obtain ⟨g, hg, hok, hdevice, hseq⟩ : ∃ g ∈ s.results, g.2 = .ok g.1.pdu ∧
      g.1.aad.device = conn.frame.aad.device ∧
      g.1.aad.seq = s.recvCounters.lastSeen conn.frame.aad.device := by
    rcases hs.accepted conn.frame.aad.device with hzero | hsome
    · rw [hzero] at hle
      exact absurd (UInt64.lt_of_lt_of_le hpos hle) (UInt64.lt_irrefl _)
    · exact hsome
  have hlt : conn.frame.aad.seq < g.1.aad.seq := by
    have hne := hdistinct.ne_of_mem_results hmem hconn hg hdevice
    rw [← hseq] at hle
    exact UInt64.lt_of_le_of_ne hle hne.symm
  refine ⟨?_, ?_, outcome_append hs.outcome ⟨iff_of_false ?_ ?_, ?_⟩⟩
  · intro g' hg'
    show _ ≤ counters.lastSeen _
    rw [hlast]
    rcases List.mem_append.mp hg' with hold | hlastly
    · exact hs.highest g' hold
    · obtain rfl := List.mem_singleton.mp hlastly
      exact hle
  · intro device
    show counters.lastSeen device = 0 ∨ ∃ g ∈ _, _ ∧ _ ∧ _ = counters.lastSeen device
    rw [hlast]
    rcases hs.accepted device with hzero | ⟨g', hg', hrest⟩
    · exact Or.inl hzero
    · exact Or.inr ⟨g', List.mem_append_left _ hg', hrest⟩
  · intro hok'
    cases hok'
  · intro hall
    exact absurd (UInt64.lt_trans hlt (hall g hg hdevice)) (UInt64.lt_irrefl _)
  · intro _
    refine ⟨g, hg, hok, hdevice, hlt, ?_⟩
    rw [hseq]
    rfl

theorem Decided.step (hs : Decided s) (hgenuine : Genuine H key s) (hdistinct : Distinct s)
    {a : TrafficAction} (h : Traffic.step H key s a = some t) : Decided t := by
  cases a with
  | connect protocol reads =>
      obtain rfl := step_connect h
      exact hs.congr rfl rfl
  | number i =>
      obtain ⟨task, reads, -, -, rfl | ⟨deviceId, pdu, seq, counters, -, rfl⟩⟩ := step_number h
      · exact hs.congr rfl rfl
      · exact hs.congr rfl rfl
  | wrap i =>
      obtain ⟨task, aad, pdu, -, -, ⟨envelope, -, rfl⟩ | rfl⟩ := step_wrap h
      · exact hs.congr rfl rfl
      · exact hs.congr rfl rfl
  | forward i =>
      obtain ⟨task, frame, -, -, rfl⟩ := step_forward h
      exact hs.congr rfl rfl
  | arrive i =>
      obtain ⟨frame, -, rfl⟩ := step_arrive h
      exact hs.congr rfl rfl
  | unwrap i =>
      obtain ⟨conn, hconn, -, hnext⟩ := step_unwrap h
      rcases hnext with ⟨aad, pdu, -, rfl⟩ | ⟨e, hopen, -⟩
      · exact hs.congr rfl rfl
      · -- A genuine envelope opens.
        have hsealed := (hgenuine.egress conn (List.mem_of_getElem? hconn)).1
        rw [openPdu_sealed hsealed] at hopen
        cases hopen
  | validate i =>
      obtain ⟨conn, aad, pdu, hconn, hstatus, hnext⟩ := step_validate h
      have hmem := List.mem_of_getElem? hconn
      obtain ⟨rfl, rfl⟩ := (hgenuine.egress conn hmem).2 aad pdu hstatus
      have hnumber : connNumbers conn = {(conn.frame.aad.device, conn.frame.aad.seq)} := by
        rw [connNumbers, hstatus]
      rcases hnext with ⟨counters, hvalid, rfl⟩ | ⟨e, counters, hvalid, rfl⟩
      · exact hs.accept hvalid
      · exact hs.refuse hdistinct hmem hnumber hvalid

/-! ## Main result -/

/-- In every run, each envelope authenticates, and it is accepted exactly when none of the same
device with a higher number was decided before it; otherwise `unwrap_pdu` reports a replay. -/
theorem outcome_of_run (h : Runs H key init s) (i : Nat) (f : SealedPdu)
    (r : RustM FrameError (List UInt8)) (hresult : s.results[i]? = some (f, r)) :
    Outcome (s.results.take i) f r := by
  have hinv : Genuine H key s ∧ Distinct s ∧ Decided s := by
    refine Run.invariant (I := fun s => Genuine H key s ∧ Distinct s ∧ Decided s) ?_ h
      ⟨.init H key, .init, .init⟩
    intro s a t hstep _ hs
    exact ⟨hs.1.step hstep, hs.2.1.step hstep, hs.2.2.step hs.1 hs.2.1 hstep⟩
  exact hinv.2.2.outcome i f r hresult

/-! ## Two connections -/

/-- Two clients send a request each to unit 1, and the second overtakes the first. -/
def overtaking : List TrafficAction :=
  [.connect .modbusTcp [readRequest 1], .connect .modbusTcp [readRequest 2], .number 0, .number 1,
    .wrap 0, .wrap 1, .forward 1, .forward 0, .arrive 0, .arrive 0, .unwrap 0, .unwrap 1,
    .validate 0, .validate 1]

/-- The two ingress tasks send their envelopes, the second one first. -/
theorem runSteps_overtaking_sent (H : Hmac) (key : NapqesKey) :
    ∃ s f g, runSteps (step H key) init (overtaking.take 8) = some s ∧
      f.aad = { protocol := .modbusTcp, deviceId := 1, seq := 1 } ∧
      g.aad = { protocol := .modbusTcp, deviceId := 1, seq := 2 } ∧
      wrapPdu H f.pdu f.aad key = .ok f.envelope ∧ wrapPdu H g.pdu g.aad key = .ok g.envelope ∧
      s.link = [g, f] ∧ s.egress = [] ∧ s.recvCounters = .new ∧ s.results = [] := by
  obtain ⟨envelope, hwrap⟩ := @exists_wrapPdu H [1, 3, 0, 0, 0, 10] (by decide)
    { protocol := .modbusTcp, deviceId := 1, seq := 1 } key
  obtain ⟨envelope', hwrap'⟩ := @exists_wrapPdu H [1, 3, 0, 0, 0, 10] (by decide)
    { protocol := .modbusTcp, deviceId := 1, seq := 2 } key
  have hpdu : ∀ n, ingressPdu .modbusTcp (readRequest n) = some (1, [1, 3, 0, 0, 0, 10]) :=
    fun n => rfl
  have hne : ∀ n, readRequest n ≠ [] := fun n => List.cons_ne_nil _ _
  let f : SealedPdu := ⟨{ protocol := .modbusTcp, deviceId := 1, seq := 1 }, [1, 3, 0, 0, 0, 10],
    envelope⟩
  let g : SealedPdu := ⟨{ protocol := .modbusTcp, deviceId := 1, seq := 2 }, [1, 3, 0, 0, 0, 10],
    envelope'⟩
  obtain ⟨s, hsteps, hlink⟩ : ∃ s, runSteps (step H key) init (overtaking.take 8) = some s ∧
      s.link = [g, f] ∧ s.egress = [] ∧ s.recvCounters = .new ∧ s.results = [] := by
    simp [overtaking, runSteps, step, init, setIngress, hne, hpdu, hwrap, hwrap', f, g,
      SequenceCounter.nextSeq, SequenceCounter.new, Except.toOption]
  exact ⟨s, f, g, hsteps, rfl, rfl, hwrap, hwrap', hlink⟩

theorem runSteps_overtaking (H : Hmac) (key : NapqesKey) :
    ∃ s f g, runSteps (step H key) init overtaking = some s ∧
      f.aad = { protocol := .modbusTcp, deviceId := 1, seq := 1 } ∧
      g.aad = { protocol := .modbusTcp, deviceId := 1, seq := 2 } ∧
      s.results = [(g, .ok g.pdu), (f, err (.replayDetected 1 .modbusTcp 1 2))] := by
  obtain ⟨s, f, g, hsent, hf, hg, hwrap, hwrap', hlink, hegress, hcounters, hresults⟩ :=
    runSteps_overtaking_sent H key
  have hopen := openPdu_sealed hwrap
  have hopen' := openPdu_sealed hwrap'
  rw [← List.take_append_drop 8 overtaking, runSteps_append, hsent, Option.bind_some]
  simp [overtaking, runSteps, step, setStatus, returns, hlink, hegress, hcounters, hresults, hopen,
    hopen', hf, hg, SequenceCounter.new, SequenceCounter.validateRecv, err]

/-- The request that was overtaken is reported as a replay, the other is accepted. -/
theorem outcome_of_run_overtaking :
    ∃ s f g, Runs zeroHmac zeroWrap.key init s ∧
      s.results = [(g, .ok g.pdu), (f, err (.replayDetected 1 .modbusTcp 1 2))] ∧
      Outcome [] g (.ok g.pdu) ∧
      Outcome [(g, .ok g.pdu)] f (err (.replayDetected 1 .modbusTcp 1 2)) := by
  obtain ⟨s, f, g, hsteps, -, -, hresults⟩ := runSteps_overtaking zeroHmac zeroWrap.key
  have hrun : Runs zeroHmac zeroWrap.key init s := run_of_runSteps (fun _ _ _ => trivial) hsteps
  refine ⟨s, f, g, hrun, hresults, ?_, ?_⟩
  · have hfirst := outcome_of_run hrun 0 g (.ok g.pdu) (by rw [hresults]; rfl)
    rw [hresults] at hfirst
    exact hfirst
  · have hsecond := outcome_of_run hrun 1 f _ (by rw [hresults]; rfl)
    rw [hresults] at hsecond
    exact hsecond

/-- A genuine envelope, delivered once, is dropped as a replay. -/
theorem drops_overtaken_envelope :
    ¬ ∀ s, Runs zeroHmac zeroWrap.key init s → ∀ result ∈ s.results,
      result.2 = .ok result.1.pdu := by
  intro hall
  obtain ⟨s, f, g, hsteps, -, -, hresults⟩ := runSteps_overtaking zeroHmac zeroWrap.key
  have hrun : Runs zeroHmac zeroWrap.key init s := run_of_runSteps (fun _ _ _ => trivial) hsteps
  have hok := hall s hrun (f, err (.replayDetected 1 .modbusTcp 1 2)) (by
    rw [hresults]
    exact List.mem_cons_of_mem _ List.mem_cons_self)
  cases hok

end Traffic

end Napqes.Rust
