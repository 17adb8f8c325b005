import Mathlib.Data.List.Sublists
import Mathlib.Data.Multiset.Count
import Napqes.Misc.Simulation

/-!
# Lossy channels

What a receiver may rely on when the network cannot be trusted: for each source, the messages on
their way are a queue that can lose messages at any place, and what is received is its head. So
nothing is made up, nothing comes twice, and the messages of a source keep their order.
-/

namespace Napqes

variable {κ μ : Type} [DecidableEq κ]

/-- What can be seen of a channel. -/
inductive ChannelEvent (κ μ : Type) where
  | sent (k : κ) (m : μ)
  | received (k : κ) (m : μ)
  deriving DecidableEq, Repr

/-- One step of a channel. A state is the queue of each source. -/
inductive ChannelStep : (κ → List μ) → List (ChannelEvent κ μ) → (κ → List μ) → Prop where
  | send (c : κ → List μ) (k : κ) (m : μ) :
      ChannelStep c [.sent k m] (Function.update c k (c k ++ [m]))
  | lose (c : κ → List μ) (k : κ) (ms : List μ) :
      ms.Sublist (c k) → ChannelStep c [] (Function.update c k ms)
  | receive (c : κ → List μ) (k : κ) (m : μ) (ms : List μ) :
      c k = m :: ms → ChannelStep c [.received k m] (Function.update c k ms)

/-! ## Traces -/

/-- The messages that were sent, with their sources. -/
def sentLog (es : List (ChannelEvent κ μ)) : List (κ × μ) :=
  es.filterMap fun
    | .sent k m => some (k, m)
    | .received .. => none

/-- The messages that were received, with their sources. -/
def receivedLog (es : List (ChannelEvent κ μ)) : List (κ × μ) :=
  es.filterMap fun
    | .sent .. => none
    | .received k m => some (k, m)

/-- The messages of one source in a log. -/
def messagesOf (k : κ) (log : List (κ × μ)) : List μ :=
  (log.filter fun e => e.1 = k).map Prod.snd

omit [DecidableEq κ] in
theorem sentLog_append (es es' : List (ChannelEvent κ μ)) :
    sentLog (es ++ es') = sentLog es ++ sentLog es' := List.filterMap_append

omit [DecidableEq κ] in
theorem receivedLog_append (es es' : List (ChannelEvent κ μ)) :
    receivedLog (es ++ es') = receivedLog es ++ receivedLog es' := List.filterMap_append

omit [DecidableEq κ] in
@[simp] theorem sentLog_single_sent (k : κ) (m : μ) :
    sentLog [ChannelEvent.sent k m] = [(k, m)] := rfl

omit [DecidableEq κ] in
@[simp] theorem sentLog_single_received (k : κ) (m : μ) :
    sentLog [ChannelEvent.received k m] = [] := rfl

omit [DecidableEq κ] in
@[simp] theorem sentLog_nil : sentLog ([] : List (ChannelEvent κ μ)) = [] := rfl

omit [DecidableEq κ] in
@[simp] theorem receivedLog_single_sent (k : κ) (m : μ) :
    receivedLog [ChannelEvent.sent k m] = [] := rfl

omit [DecidableEq κ] in
@[simp] theorem receivedLog_single_received (k : κ) (m : μ) :
    receivedLog [ChannelEvent.received k m] = [(k, m)] := rfl

omit [DecidableEq κ] in
@[simp] theorem receivedLog_nil : receivedLog ([] : List (ChannelEvent κ μ)) = [] := rfl

@[simp] theorem messagesOf_nil (k : κ) : messagesOf k ([] : List (κ × μ)) = [] := rfl

theorem messagesOf_append (k : κ) (log log' : List (κ × μ)) :
    messagesOf k (log ++ log') = messagesOf k log ++ messagesOf k log' := by
  simp [messagesOf]

theorem messagesOf_singleton (k k' : κ) (m : μ) :
    messagesOf k [(k', m)] = if k' = k then [m] else [] := by
  by_cases hk : k' = k
  · simp [messagesOf, hk]
  · simp [messagesOf, hk]

theorem count_messagesOf [DecidableEq μ] (k : κ) (m : μ) (log : List (κ × μ)) :
    (messagesOf k log).count m = log.count (k, m) := by
  induction log with
  | nil => rfl
  | cons e log ih =>
      obtain ⟨k', m'⟩ := e
      have hcons : messagesOf k ((k', m') :: log) =
          messagesOf k [(k', m')] ++ messagesOf k log := messagesOf_append k [_] log
      rw [hcons, messagesOf_singleton, List.count_append, ih, List.count_cons, add_comm]
      by_cases hk : k' = k
      · simp [hk, List.count_singleton]
      · simp [hk]

/-- Of each source, what was received and what is on its way was sent, in this order. -/
theorem ChannelStep.sublist {c c' : κ → List μ} {es es' : List (ChannelEvent κ μ)}
    (hstep : ChannelStep c es' c') {k : κ}
    (h : (messagesOf k (receivedLog es) ++ c k).Sublist (messagesOf k (sentLog es))) :
    (messagesOf k (receivedLog (es ++ es')) ++ c' k).Sublist
      (messagesOf k (sentLog (es ++ es'))) := by
  rw [receivedLog_append, sentLog_append, messagesOf_append, messagesOf_append]
  cases hstep with
  | send k' m =>
      rw [sentLog_single_sent, receivedLog_single_sent, messagesOf_singleton, messagesOf_nil,
        List.append_nil]
      by_cases hk : k' = k
      · subst hk
        rw [Function.update_self, if_pos rfl, ← List.append_assoc]
        exact h.append (List.Sublist.refl [m])
      · rw [Function.update_of_ne (Ne.symm hk), if_neg hk, List.append_nil]
        exact h
  | lose k' ms hms =>
      rw [sentLog_nil, receivedLog_nil, messagesOf_nil, List.append_nil, List.append_nil]
      by_cases hk : k' = k
      · subst hk
        rw [Function.update_self]
        exact (hms.append_left _).trans h
      · rw [Function.update_of_ne (Ne.symm hk)]
        exact h
  | receive k' m ms hget =>
      rw [sentLog_single_received, receivedLog_single_received, messagesOf_singleton,
        messagesOf_nil, List.append_nil]
      by_cases hk : k' = k
      · subst hk
        rw [Function.update_self, if_pos rfl, List.append_assoc, List.singleton_append, ← hget]
        exact h
      · rw [Function.update_of_ne (Ne.symm hk), if_neg hk, List.append_nil]
        exact h

/-- What is received from a source was sent there, in the same order and each message once. -/
theorem receivedLog_sublist {c : κ → List μ} {es : List (ChannelEvent κ μ)}
    (h : Traced ChannelStep (fun _ => []) es c) (k : κ) :
    (messagesOf k (receivedLog es)).Sublist (messagesOf k (sentLog es)) := by
  have hall : (messagesOf k (receivedLog es) ++ c k).Sublist (messagesOf k (sentLog es)) := by
    refine Traced.invariant (I := fun es c =>
      (messagesOf k (receivedLog es) ++ c k).Sublist (messagesOf k (sentLog es))) ?_ h ?_
    · intro es c es' c' hstep hs
      exact hstep.sublist hs
    · exact List.Sublist.refl _
  exact (List.sublist_append_left _ _).trans hall

/-- No message is received more often than it was sent. -/
theorem receivedLog_subperm {c : κ → List μ} {es : List (ChannelEvent κ μ)}
    (h : Traced ChannelStep (fun _ => []) es c) :
    (receivedLog es).Subperm (sentLog es) := by
  classical
  rw [List.subperm_ext_iff]
  rintro ⟨k, m⟩ -
  rw [← count_messagesOf, ← count_messagesOf]
  exact (receivedLog_sublist h k).count_le m

end Napqes
