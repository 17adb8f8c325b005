import Mathlib.Tactic

/-!
# Reading a byte stream that arrives in segments

A connection delivers its bytes in segments of any sizes. `readExact` takes a fixed number of
bytes across segment borders, so what it returns depends on the concatenation alone.
-/

namespace Napqes

/-- The bytes still to arrive, as the successive reads will deliver them. -/
abbrev Segments := List (List UInt8)

/-- `read_exact` of `n` bytes: the bytes and what is still to arrive. At the end of the stream
it fails with the bytes that had arrived. -/
def readExact (n : Nat) : Segments → Except (List UInt8) (List UInt8 × Segments)
  | [] => if n = 0 then .ok ([], []) else .error []
  | seg :: segs =>
      if n ≤ seg.length then .ok (seg.take n, seg.drop n :: segs)
      else
        match readExact (n - seg.length) segs with
        | .ok (bytes, rest) => .ok (seg ++ bytes, rest)
        | .error bytes => .error (seg ++ bytes)

/-- With enough bytes, a read takes the first `n` of them and leaves the others. -/
theorem readExact_of_le {n : Nat} {segs : Segments} (h : n ≤ segs.flatten.length) :
    ∃ rest : Segments, readExact n segs = .ok (segs.flatten.take n, rest) ∧
      rest.flatten = segs.flatten.drop n := by
  induction segs generalizing n with
  | nil =>
      obtain rfl : n = 0 := by simpa using h
      exact ⟨[], rfl, rfl⟩
  | cons seg segs ih =>
      rw [readExact]
      by_cases hseg : n ≤ seg.length
      · rw [if_pos hseg]
        refine ⟨seg.drop n :: segs, ?_, ?_⟩
        · rw [List.flatten_cons, List.take_append_of_le_length hseg]
        · rw [List.flatten_cons, List.flatten_cons, List.drop_append_of_le_length hseg]
      · rw [List.flatten_cons, List.length_append] at h
        obtain ⟨rest, hread, hrest⟩ := ih (n := n - seg.length) (by omega)
        have htake : seg.take n = seg := List.take_of_length_le (by omega)
        have hdrop : seg.drop n = [] := List.drop_of_length_le (by omega)
        refine ⟨rest, ?_, ?_⟩
        · rw [if_neg hseg, hread, List.flatten_cons, List.take_append, htake]
        · rw [hrest, List.flatten_cons, List.drop_append, hdrop, List.nil_append]

/-- With too few bytes, a read fails and has consumed them all. -/
theorem readExact_of_lt {n : Nat} {segs : Segments} (h : segs.flatten.length < n) :
    readExact n segs = .error segs.flatten := by
  induction segs generalizing n with
  | nil => rw [readExact, if_neg (by simp at h; omega), List.flatten_nil]
  | cons seg segs ih =>
      rw [List.flatten_cons, List.length_append] at h
      rw [readExact, if_neg (by omega), ih (by omega), List.flatten_cons]

/-- What a successful read returns. -/
theorem readExact_eq_ok {n : Nat} {segs rest : Segments} {bytes : List UInt8}
    (h : readExact n segs = .ok (bytes, rest)) :
    bytes.length = n ∧ segs.flatten = bytes ++ rest.flatten := by
  by_cases hle : n ≤ segs.flatten.length
  · obtain ⟨rest', hread, hrest⟩ := readExact_of_le hle
    rw [hread, Except.ok.injEq, Prod.mk.injEq] at h
    obtain ⟨rfl, rfl⟩ := h
    rw [hrest, List.take_append_drop, List.length_take]
    exact ⟨by omega, rfl⟩
  · rw [readExact_of_lt (by omega)] at h
    cases h

end Napqes
