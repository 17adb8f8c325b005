import Mathlib.Order.Defs.LinearOrder
import Mathlib.Tactic

/-!
# Binary search in a sorted sequence

`binarySearch` halves a window of a list as the search of Rust's slices does: it gives the position
of the element, or the position at which inserting it keeps the order. The window starts at an
element that is not above the sought one, or at 0, and ends before one that is above it.
-/

namespace Napqes

variable {α : Type} [LinearOrder α] {xs : List α} {x : α}

/-- The halving loop on the window of `size` elements from `base`; the result is the last start. -/
def binarySearchLoop (xs : List α) (x : α) (base size : Nat) (hbase : base < xs.length)
    (hwindow : base + size ≤ xs.length) : Fin xs.length :=
  if hsize : 1 < size then
    have hmid : base + size / 2 < xs.length := by omega
    if x < xs[base + size / 2] then
      binarySearchLoop xs x base (size - size / 2) hbase (by omega)
    else binarySearchLoop xs x (base + size / 2) (size - size / 2) hmid (by omega)
  else ⟨base, hbase⟩
termination_by size

/-- `slice::binary_search`: `ok` with the position of the element, `error` with the position to
insert it at. -/
def binarySearch (xs : List α) (x : α) : Except Nat Nat :=
  if hlen : xs.length = 0 then .error 0
  else
    let base := binarySearchLoop xs x 0 xs.length (by omega) (by omega)
    if xs.get base = x then .ok base
    else if xs.get base < x then .error (base + 1)
    else .error base

/-- The window of the loop holds: its start is not above `x` unless it is 0, and what follows the
window is above `x`. -/
structure Window (xs : List α) (x : α) (base size : Nat) : Prop where
  start_le : ∀ h : base < xs.length, 0 < base → xs[base] ≤ x
  lt_after : ∀ j, (h : j < xs.length) → base + size ≤ j → x < xs[j]

/-- The loop ends with a window of one element. -/
theorem window_binarySearchLoop (hsorted : xs.Pairwise (· < ·)) {base size : Nat}
    (hbase : base < xs.length) (hwindow : base + size ≤ xs.length) (hsize : 0 < size)
    (h : Window xs x base size) :
    Window xs x (binarySearchLoop xs x base size hbase hwindow) 1 := by
  fun_induction binarySearchLoop xs x base size hbase hwindow with
  | case1 base size hbase hwindow hlt hmid habove ih =>
      apply ih (by omega)
      refine ⟨h.start_le, ?_⟩
      intro j hj hle
      by_cases hfirst : base + size / 2 < j
      · have hmono := List.pairwise_iff_getElem.mp hsorted _ _ hmid hj hfirst
        exact lt_trans habove hmono
      · have heq : j = base + size / 2 := by omega
        subst heq
        exact habove
  | case2 base size hbase hwindow hlt hmid hbelow ih =>
      apply ih (by omega)
      refine ⟨?_, ?_⟩
      · intro _ _
        exact not_lt.mp hbelow
      · intro j hj hle
        exact h.lt_after j hj (by omega)
  | case3 base size hbase hwindow hstop =>
      have hone : size = 1 := by omega
      rw [← hone]
      exact h

theorem window_whole (xs : List α) (x : α) : Window xs x 0 xs.length where
  start_le := fun _ hpos => absurd hpos (Nat.lt_irrefl 0)
  lt_after := fun j hj hle => by omega

/-- An element is found only where it is. -/
theorem mem_of_binarySearch {pos : Nat} (h : binarySearch xs x = .ok pos) : x ∈ xs := by
  unfold binarySearch at h
  split at h
  case isTrue => cases h
  case isFalse hlen =>
    dsimp only at h
    split at h
    case isTrue heq =>
      rw [← heq]
      exact List.get_mem _ _
    case isFalse =>
      split at h
      case isTrue => cases h
      case isFalse => cases h

/-- The insertion position parts the elements below `x` from those above. -/
theorem binarySearch_eq_error (hsorted : xs.Pairwise (· < ·)) {pos : Nat}
    (h : binarySearch xs x = .error pos) :
    pos ≤ xs.length ∧ (∀ y ∈ xs.take pos, y < x) ∧ (∀ y ∈ xs.drop pos, x < y) := by
  have hpw := List.pairwise_iff_getElem.mp hsorted
  unfold binarySearch at h
  split at h
  case isTrue hlen =>
    cases h
    rw [List.length_eq_zero_iff.mp hlen]
    simp
  case isFalse hlen =>
    have hwindow := window_binarySearchLoop hsorted (by omega) (by omega) (by omega)
      (window_whole xs x)
    dsimp only at h
    generalize binarySearchLoop xs x 0 xs.length _ _ = base at h hwindow
    have hlt := base.isLt
    split at h
    case isTrue => cases h
    case isFalse hne =>
      split at h
      case isTrue hbelow =>
        cases h
        refine ⟨hlt, ?_, ?_⟩
        · intro y hy
          obtain ⟨j, hj, rfl⟩ := List.mem_take_iff_getElem.mp hy
          by_cases heq : j = base
          · subst heq
            exact hbelow
          · exact lt_trans (hpw j base (by omega) hlt (by omega)) hbelow
        · intro y hy
          obtain ⟨j, hj, rfl⟩ := List.mem_drop_iff_getElem.mp hy
          exact hwindow.lt_after _ _ (by omega)
      case isFalse hnbelow =>
        cases h
        have habove : x < xs.get base := by
          rcases lt_trichotomy (xs.get base) x with h | h | h
          · exact absurd h hnbelow
          · exact absurd h hne
          · exact h
        have hzero : base.val = 0 := by
          by_contra hpos
          exact absurd (hwindow.start_le hlt (Nat.pos_of_ne_zero hpos)) (not_le.mpr habove)
        refine ⟨Nat.le_of_lt hlt, ?_, ?_⟩
        · rw [hzero, List.take_zero]
          simp
        · intro y hy
          obtain ⟨j, hj, rfl⟩ := List.mem_drop_iff_getElem.mp hy
          by_cases heq : j = 0
          · subst heq
            exact habove
          · exact lt_trans habove (hpw base _ hlt _ (by omega))

/-- An element the search does not find is not there. -/
theorem not_mem_of_binarySearch (hsorted : xs.Pairwise (· < ·)) {pos : Nat}
    (h : binarySearch xs x = .error pos) : x ∉ xs := by
  obtain ⟨-, hbelow, habove⟩ := binarySearch_eq_error hsorted h
  intro hmem
  rw [← List.take_append_drop pos xs, List.mem_append] at hmem
  rcases hmem with hmem | hmem
  · exact lt_irrefl _ (hbelow x hmem)
  · exact lt_irrefl _ (habove x hmem)

theorem insertIdx_eq_take_drop {β : Type} {xs : List β} (x : β) {pos : Nat} (h : pos ≤ xs.length) :
    xs.insertIdx pos x = xs.take pos ++ x :: xs.drop pos := by
  induction pos generalizing xs with
  | zero => simp
  | succ pos ih =>
      cases xs with
      | nil => simp at h
      | cons y ys =>
          rw [List.insertIdx_succ_cons, ih (by simpa using h)]
          rfl

/-- Inserting at the position the search gives keeps the order. -/
theorem pairwise_insertIdx_of_binarySearch (hsorted : xs.Pairwise (· < ·)) {pos : Nat}
    (h : binarySearch xs x = .error pos) : (xs.insertIdx pos x).Pairwise (· < ·) := by
  obtain ⟨hle, hbelow, habove⟩ := binarySearch_eq_error hsorted h
  have hparts := hsorted
  rw [← List.take_append_drop pos xs, List.pairwise_append] at hparts
  rw [insertIdx_eq_take_drop x hle, List.pairwise_append, List.pairwise_cons]
  refine ⟨hparts.1, ⟨habove, hparts.2.1⟩, ?_⟩
  intro a ha b hb
  rcases List.mem_cons.mp hb with rfl | hb
  · exact hbelow a ha
  · exact hparts.2.2 a ha b hb

end Napqes
