import Napqes.Misc.Generator
import Napqes.Python.Basic

/-!
# Generators and their input in Python

The streaming decryptors read their input through a buffer that is refilled from an iterator of
byte chunks of any sizes, and yield characters. What a read returns depends only on the
concatenation of the buffer and the chunks.
-/

namespace Napqes.Python

/-- The buffer `_buf` and what `chunk_iter` has still to deliver. -/
structure Reader where
  buf : List UInt8
  chunks : List (List UInt8)

/-- Everything that can still be read. -/
def Reader.bytes (r : Reader) : List UInt8 := r.buf ++ r.chunks.flatten

/-- The loop of `_read_n` (`napqes.py:1738-1748`, `napqes.py:2213-2223`). -/
def readN (n : Nat) : List UInt8 → List (List UInt8) → PyM (List UInt8 × Reader)
  | buf, [] =>
      let available := buf.length
      if n ≤ buf.length then .ok (buf.take n, ⟨buf.drop n, []⟩)
      else valueError s!"Stream truncated: need {n} bytes, only {available} available."
  | buf, chunk :: chunks =>
      if n ≤ buf.length then .ok (buf.take n, ⟨buf.drop n, chunk :: chunks⟩)
      else readN n (buf ++ chunk) chunks

/-- A read takes the first `n` bytes, across as many chunks as it needs. -/
theorem readN_of_le {n : Nat} {buf : List UInt8} {chunks : List (List UInt8)}
    (h : n ≤ (buf ++ chunks.flatten).length) :
    ∃ r : Reader, readN n buf chunks = .ok ((buf ++ chunks.flatten).take n, r) ∧
      r.bytes = (buf ++ chunks.flatten).drop n := by
  induction chunks generalizing buf with
  | nil =>
      rw [List.flatten_nil, List.append_nil] at h ⊢
      rw [readN, if_pos h]
      exact ⟨_, rfl, by simp [Reader.bytes]⟩
  | cons chunk chunks ih =>
      rw [readN]
      split
      case isTrue hbuf =>
        refine ⟨_, by rw [List.take_append_of_le_length hbuf], ?_⟩
        rw [Reader.bytes, List.drop_append_of_le_length hbuf]
      case isFalse =>
        rw [List.flatten_cons, ← List.append_assoc] at h ⊢
        exact ih h

/-- A read of more than there is fails. -/
theorem readN_of_lt {n : Nat} {buf : List UInt8} {chunks : List (List UInt8)}
    (h : (buf ++ chunks.flatten).length < n) : ∃ e, readN n buf chunks = .error e := by
  induction chunks generalizing buf with
  | nil =>
      rw [List.flatten_nil, List.append_nil] at h
      rw [readN, if_neg (Nat.not_le.mpr h)]
      exact ⟨_, rfl⟩
  | cons chunk chunks ih =>
      have hbuf : ¬ n ≤ buf.length := by
        rw [List.length_append] at h
        omega
      rw [readN, if_neg hbuf]
      rw [List.flatten_cons, ← List.append_assoc] at h
      exact ih h

theorem length_of_readN {n : Nat} {buf data : List UInt8} {chunks : List (List UInt8)}
    {r : Reader} (h : readN n buf chunks = .ok (data, r)) :
    r.bytes.length + n = (buf ++ chunks.flatten).length := by
  by_cases hn : n ≤ (buf ++ chunks.flatten).length
  · obtain ⟨r', hread, hrest⟩ := readN_of_le hn
    rw [hread, Except.ok.injEq, Prod.mk.injEq] at h
    rw [← h.2, hrest, List.length_drop]
    omega
  · obtain ⟨e, hread⟩ := readN_of_lt (Nat.not_le.mp hn)
    rw [hread] at h
    cases h

/-- `_read_n(n)`: the bytes, and the reader behind them. -/
def Reader.read (r : Reader) (n : Nat) :
    PyM { p : List UInt8 × Reader // p.2.bytes.length + n = r.bytes.length } :=
  match h : readN n r.buf r.chunks with
  | .ok p => .ok ⟨p, length_of_readN h⟩
  | .error e => .error e

theorem Reader.read_of_le {r : Reader} {n : Nat} (h : n ≤ r.bytes.length) :
    ∃ (r' : Reader) (hlen : r'.bytes.length + n = r.bytes.length),
      r.read n = .ok ⟨(r.bytes.take n, r'), hlen⟩ ∧ r'.bytes = r.bytes.drop n := by
  obtain ⟨r', hread, hrest⟩ := readN_of_le h
  have hlen := length_of_readN hread
  refine ⟨r', hlen, ?_, hrest⟩
  unfold Reader.read
  split
  case h_1 p hp =>
    rw [hread, Except.ok.injEq] at hp
    subst hp
    rfl
  case h_2 e he =>
    rw [hread] at he
    cases he

theorem Reader.read_of_lt {r : Reader} {n : Nat} (h : r.bytes.length < n) :
    ∃ e, r.read n = .error e := by
  obtain ⟨e, hread⟩ := readN_of_lt h
  refine ⟨e, ?_⟩
  unfold Reader.read
  split
  case h_1 p hp =>
    rw [hread] at hp
    cases hp
  case h_2 e' he =>
    rw [hread, Except.error.injEq] at he
    rw [he]

/-- Two reads, one after the other. -/
theorem Reader.read_read {r : Reader} {n m : Nat} (h : n + m ≤ r.bytes.length) :
    ∃ (r₁ r₂ : Reader) (h₁ : r₁.bytes.length + n = r.bytes.length)
      (h₂ : r₂.bytes.length + m = r₁.bytes.length),
      r.read n = .ok ⟨(r.bytes.take n, r₁), h₁⟩ ∧
        r₁.read m = .ok ⟨((r.bytes.drop n).take m, r₂), h₂⟩ ∧
        r₂.bytes = r.bytes.drop (n + m) := by
  obtain ⟨r₁, h₁, hread₁, hr₁⟩ := @Reader.read_of_le r n (by omega)
  obtain ⟨r₂, h₂, hread₂, hr₂⟩ := @Reader.read_of_le r₁ m (by omega)
  refine ⟨r₁, r₂, h₁, h₂, hread₁, ?_, ?_⟩
  · rw [← hr₁]
    exact hread₂
  · rw [hr₂, hr₁, List.drop_drop]

/-- On too few bytes one of the two reads fails. -/
theorem Reader.read_read_of_lt {r : Reader} {n m : Nat} (h : r.bytes.length < n + m) :
    (∃ e, r.read n = .error e) ∨
      ∃ (r₁ : Reader) (h₁ : r₁.bytes.length + n = r.bytes.length),
        r.read n = .ok ⟨(r.bytes.take n, r₁), h₁⟩ ∧ ∃ e, r₁.read m = .error e := by
  by_cases hn : n ≤ r.bytes.length
  · obtain ⟨r₁, h₁, hread₁, -⟩ := Reader.read_of_le hn
    exact Or.inr ⟨r₁, h₁, hread₁, Reader.read_of_lt (by omega)⟩
  · exact Or.inl (Reader.read_of_lt (Nat.not_le.mp hn))

theorem raisesValueError_readN (n : Nat) (buf : List UInt8) (chunks : List (List UInt8)) :
    RaisesValueError (readN n buf chunks) := by
  induction chunks generalizing buf with
  | nil =>
      rw [readN]
      split
      · exact failsOnly_ok _
      · exact raisesValueError_valueError _
  | cons chunk chunks ih =>
      rw [readN]
      split
      · exact failsOnly_ok _
      · exact ih _

theorem Reader.raisesValueError_read (r : Reader) (n : Nat) : RaisesValueError (r.read n) := by
  have hread := raisesValueError_readN n r.buf r.chunks
  unfold Reader.read
  split
  case h_1 p hp => exact failsOnly_ok _
  case h_2 e he => exact failsOnly_error_iff.mpr (hread e he)

/-- `for cp in cps: yield chr(cp)`. -/
def yieldChars : List Nat → Gen PyErr Nat PUnit
  | [] => pure ⟨⟩
  | cp :: cps => do
      Gen.yield (← chr cp)
      yieldChars cps

/-- Scalar values are yielded one after the other. -/
theorem yieldChars_eq {cps : List Nat} (h : ∀ c ∈ cps, IsScalar c) :
    yieldChars cps = ⟨cps, .ok ⟨⟩⟩ := by
  induction cps with
  | nil => rfl
  | cons c cps ih =>
      have hc : chr c = .ok c := if_pos (h c (List.mem_cons_self ..)).1
      rw [yieldChars, hc, ih fun d hd => h d (List.mem_cons_of_mem _ hd)]
      rfl

end Napqes.Python
