import Napqes.Rust.Keygen
import Napqes.Misc.Distinct

/-!
# Generated prime tuples

The loop of `generate_prime_numbers` keeps the distinct primes it has drawn, in draw order, and a
sorted index of them. `Keygen.Inv` says so of its variables; one turn keeps it, and the value of
the whole call is read off the last state.
-/

namespace Napqes.Rust

variable {ε : Type} {draws : Nat → Nat} {count maxAttempts minVal maxVal : Nat} {s s' : Keygen}

/-- The primes are the hits of the draws so far, and the index holds the same numbers in order. -/
structure Keygen.Inv (draws : Nat → Nat) (count : Nat) (s : Keygen) : Prop where
  primes_eq : s.primes = hits isPrime draws s.attempts
  length_le : s.primes.length ≤ count
  sorted : s.sorted.Pairwise (· < ·)
  perm : s.sorted.Perm s.primes

theorem Keygen.inv_start (draws : Nat → Nat) (count : Nat) :
    Keygen.Inv draws count ⟨[], [], 0⟩ where
  primes_eq := rfl
  length_le := Nat.zero_le _
  sorted := .nil
  perm := .nil

/-- The next turn keeps the invariant: a number the search finds is no new hit, and one it does
not find goes to its place in the index. -/
theorem Keygen.Inv.step (h : s.Inv draws count) (hroom : s.primes.length < count)
    (hcounter : s.attempts + 1 < 2 ^ 64) :
    ∃ s', (s.step (draws s.attempts) : RustM ε Keygen) = .ok s' ∧ s'.Inv draws count ∧
      s'.attempts = s.attempts + 1 := by
  have hu64 : (u64 (s.attempts + 1) : RustM ε Nat) = .ok (s.attempts + 1) := u64_of_lt hcounter
  have hmem : draws s.attempts ∈ s.sorted ↔ draws s.attempts ∈ hits isPrime draws s.attempts := by
    rw [h.perm.mem_iff, h.primes_eq]
  have hnext := hits_succ isPrime draws s.attempts
  unfold Keygen.step
  cases hsearch : binarySearch s.sorted (draws s.attempts) with
  | ok pos =>
      have hold := hmem.mp (mem_of_binarySearch hsearch)
      rw [if_neg (fun hnew => hnew.1 hold)] at hnext
      refine ⟨{ s with attempts := s.attempts + 1 }, ?_, ?_, rfl⟩
      · simp only [hu64, ok_bind]
        rfl
      · exact ⟨h.primes_eq.trans hnext.symm, h.length_le, h.sorted, h.perm⟩
  | error pos =>
      have hnew : draws s.attempts ∉ hits isPrime draws s.attempts := by
        intro hold
        exact not_mem_of_binarySearch h.sorted hsearch (hmem.mpr hold)
      have hpos := (binarySearch_eq_error h.sorted hsearch).1
      cases hprime : isPrime (draws s.attempts) with
      | true =>
          rw [if_pos ⟨hnew, hprime⟩] at hnext
          refine ⟨⟨s.primes ++ [draws s.attempts], s.sorted.insertIdx pos (draws s.attempts),
            s.attempts + 1⟩, ?_, ?_, rfl⟩
          · have hinsert : (vecInsert s.sorted pos (draws s.attempts) : RustM ε (List Nat)) =
                .ok (s.sorted.insertIdx pos (draws s.attempts)) := if_pos hpos
            simp only [hinsert, hu64, ok_bind, if_true]
            rfl
          · refine ⟨?_, ?_, pairwise_insertIdx_of_binarySearch h.sorted hsearch, ?_⟩
            · rw [hnext, h.primes_eq]
            · rw [List.length_append, List.length_singleton]
              omega
            · apply (List.perm_insertIdx _ _ hpos).trans
              apply (h.perm.cons _).trans
              exact (List.perm_append_singleton _ _).symm
      | false =>
          rw [if_neg (fun hnew => by rw [hprime] at hnew; cases hnew.2)] at hnext
          refine ⟨{ s with attempts := s.attempts + 1 }, ?_, ?_, rfl⟩
          · simp only [hu64, ok_bind]
            rfl
          · exact ⟨h.primes_eq.trans hnext.symm, h.length_le, h.sorted, h.perm⟩

/-- The loop ends, with the invariant and with its guard false. -/
theorem Keygen.Inv.loop (h : s.Inv draws count) (hle : s.attempts ≤ maxAttempts)
    (hmax : maxAttempts < 2 ^ 64) :
    ∃ s', (Keygen.loop draws count maxAttempts s : RustM ε Keygen) = .ok s' ∧
      s'.Inv draws count ∧ s'.attempts ≤ maxAttempts ∧
      ¬ (s'.primes.length < count ∧ s'.attempts < maxAttempts) := by
  induction hleft : maxAttempts - s.attempts generalizing s with
  | zero =>
      have hguard : ¬ (s.primes.length < count ∧ s.attempts < maxAttempts) := by omega
      refine ⟨s, ?_, h, hle, hguard⟩
      rw [Keygen.loop, if_neg hguard]
  | succ left ih =>
      by_cases hguard : s.primes.length < count ∧ s.attempts < maxAttempts
      · obtain ⟨s₁, hstep, hinv, hattempts⟩ := @Keygen.Inv.step ε _ _ _ h hguard.1 (by omega)
        obtain ⟨s', hloop, hrest⟩ := ih hinv (by omega) (by omega)
        refine ⟨s', ?_, hrest⟩
        rw [Keygen.loop, if_pos hguard]
        split
        case h_1 s₂ hstep' =>
          rw [hstep] at hstep'
          cases hstep'
          exact hloop
        case h_2 e hstep' =>
          rw [hstep] at hstep'
          cases hstep'
      · refine ⟨s, ?_, h, hle, hguard⟩
        rw [Keygen.loop, if_neg hguard]

/-- The states at the head of the loop. -/
inductive Keygen.Visited (draws : Nat → Nat) (count maxAttempts : Nat) : Keygen → Prop where
  | start : Visited draws count maxAttempts ⟨[], [], 0⟩
  | turn {s s' : Keygen} : Visited draws count maxAttempts s → s.primes.length < count →
      s.attempts < maxAttempts → (s.step (draws s.attempts) : RustM String Keygen) = .ok s' →
      Visited draws count maxAttempts s'

theorem Keygen.Visited.inv (hmax : maxAttempts < 2 ^ 64)
    (h : Keygen.Visited draws count maxAttempts s) : s.Inv draws count := by
  induction h with
  | start => exact Keygen.inv_start draws count
  | turn _ hroom hleft hstep ih =>
      obtain ⟨s₁, hstep', hinv, -⟩ := @Keygen.Inv.step String _ _ _ ih hroom (by omega)
      rw [hstep] at hstep'
      cases hstep'
      exact hinv

/-! ## The whole call -/

theorem saturatingMul_eq (hpos : 1 ≤ count) (hmax : count ≤ maxKeyElements) :
    min (max count 1 * keygenDrawsPerPrime) (2 ^ 64 - 1) = 4096 * count := by
  simp only [keygenDrawsPerPrime, maxKeyElements] at hmax ⊢
  omega

/-- The call finds `count` distinct primes among its draws or reports that there are too few. -/
theorem generatePrimeNumbers_eq (hpos : 1 ≤ count) (hmax : count ≤ maxKeyElements)
    (hrange : minVal < maxVal) :
    (count ≤ (hits isPrime draws (4096 * count)).length ∧
      generatePrimeNumbers draws count minVal maxVal =
        .ok ((hits isPrime draws (4096 * count)).take count)) ∨
    ((hits isPrime draws (4096 * count)).length < count ∧
      ∃ e, generatePrimeNumbers draws count minVal maxVal = err e) := by
  have hbudget := saturatingMul_eq hpos hmax
  obtain ⟨s, hloop, hinv, hle, hstop⟩ := @Keygen.Inv.loop String draws count (4096 * count) _
    (Keygen.inv_start draws count) (Nat.zero_le _) (by simp only [maxKeyElements] at hmax; omega)
  unfold generatePrimeNumbers
  rw [if_neg (by omega), if_neg (by omega)]
  simp only [hbudget, hloop, ok_bind]
  by_cases hfull : s.primes.length < count
  · have hspent : s.attempts = 4096 * count := by omega
    refine Or.inr ⟨?_, ?_⟩
    · rw [← hspent, ← hinv.primes_eq]
      exact hfull
    · rw [if_pos hfull]
      exact ⟨_, rfl⟩
  · have hlen : s.primes.length = count := Nat.le_antisymm hinv.length_le (Nat.le_of_not_lt hfull)
    rw [hinv.primes_eq] at hlen
    refine Or.inl ⟨?_, ?_⟩
    · have hkept := (hits_isPrefix isPrime draws hle).length_le
      rwa [hlen] at hkept
    · rw [if_neg hfull, take_hits hle hlen, hinv.primes_eq]
      rfl

theorem hits_isPrime (hdraws : ∀ i, draws i < 2 ^ 64) (t : Nat) :
    hits isPrime draws t = hits primeTest draws t := by
  apply hits_congr
  intro i
  rw [Bool.eq_iff_iff, isPrime_iff (hdraws i), primeTest_iff]

theorem length_hits_primeTest (draws : Nat → Nat) (t : Nat) :
    (hits primeTest draws t).length =
      (((Finset.range t).image draws).filter Nat.Prime).card := by
  rw [length_hits]
  simp only [primeTest_iff]

/-- What a successful call was asked for, and what it found. -/
theorem of_generatePrimeNumbers {primes : List Nat}
    (h : generatePrimeNumbers draws count minVal maxVal = .ok primes) :
    1 ≤ count ∧ count ≤ maxKeyElements ∧ count ≤ (hits isPrime draws (4096 * count)).length ∧
      primes = (hits isPrime draws (4096 * count)).take count := by
  have hcount : ¬ (count = 0 ∨ count > maxKeyElements) := by
    intro hbad
    rw [generatePrimeNumbers, if_pos hbad] at h
    cases h
  have hrange : ¬ maxVal ≤ minVal := by
    intro hbad
    rw [generatePrimeNumbers, if_neg hcount, if_pos hbad] at h
    cases h
  have hspec := @generatePrimeNumbers_eq draws count minVal maxVal (by omega) (by omega) (by omega)
  rcases hspec with ⟨henough, hok⟩ | ⟨-, e, herr⟩
  · rw [hok] at h
    exact ⟨by omega, by omega, henough, (Except.ok.inj h).symm⟩
  · rw [herr] at h
    cases h

/-- A tuple drawn from a part of the normative interval is a key. -/
theorem keyValid_of_generatePrimeNumbers {primes : List Nat} (hlow : minKeyPrime ≤ minVal)
    (hhigh : maxVal ≤ maxKeyPrime) (hdraws : ∀ i, minVal ≤ draws i ∧ draws i ≤ maxVal)
    (h : generatePrimeNumbers draws count minVal maxVal = .ok primes) : KeyValid primes := by
  obtain ⟨hone, hcount, henough, rfl⟩ := of_generatePrimeNumbers h
  have hmem : ∀ k ∈ (hits isPrime draws (4096 * count)).take count,
      (∃ i, draws i = k) ∧ isPrime k = true := by
    intro k hk
    obtain ⟨⟨i, -, hi⟩, hprime⟩ := mem_hits.mp (List.mem_of_mem_take hk)
    exact ⟨⟨i, hi⟩, hprime⟩
  have hin : ∀ k ∈ (hits isPrime draws (4096 * count)).take count,
      1000000 ≤ k ∧ k ≤ 14999999 := by
    intro k hk
    obtain ⟨⟨i, rfl⟩, -⟩ := hmem k hk
    have := hdraws i
    simp only [minKeyPrime, maxKeyPrime] at hlow hhigh
    omega
  simp only [maxKeyElements] at hcount
  exact
    { nonempty := by
        rw [← List.length_pos_iff, List.length_take]
        omega
      length_le := by
        rw [List.length_take]
        omega
      range := hin
      prime := fun k hk => (isPrime_iff (by have := hin k hk; omega)).mp (hmem k hk).2
      nodup := (nodup_hits _ _ _).take }

/-- `generate_prime_numbers` on every sequence of draws in its range, and `generate_v8_key`. -/
theorem generatePrimeNumbers_generateV8Key_spec (hdraws : ∀ i, minVal ≤ draws i ∧ draws i ≤ maxVal)
    (hmax : maxVal < 2 ^ 64) :
    (1 ≤ count → count ≤ 128 → minVal < maxVal →
      ((∃ primes, generatePrimeNumbers draws count minVal maxVal = .ok primes) ↔
        count ≤ (((Finset.range (4096 * count)).image draws).filter Nat.Prime).card) ∧
      (∀ primes, generatePrimeNumbers draws count minVal maxVal = .ok primes →
        primes = (hits primeTest draws (4096 * count)).take count) ∧
      (∀ s, Keygen.Visited draws count (4096 * count) s →
        s.sorted.Pairwise (· < ·) ∧ ∀ x, x ∈ s.sorted ↔ x ∈ s.primes)) ∧
    (∀ sk primes sk', generateV8Key draws sk count minVal maxVal = .ok (primes, sk') →
      validateKey primes = .ok ⟨⟩) := by
  have hlt : ∀ i, draws i < 2 ^ 64 := by
    intro i
    have := (hdraws i).2
    omega
  constructor
  · intro hone hcount hrange
    have hspec := @generatePrimeNumbers_eq draws count minVal maxVal hone hcount hrange
    rw [hits_isPrime hlt, length_hits_primeTest] at hspec
    refine ⟨?_, ?_, ?_⟩
    · rcases hspec with ⟨henough, hok⟩ | ⟨hfew, e, herr⟩
      · exact ⟨fun _ => henough, fun _ => ⟨_, hok⟩⟩
      · constructor
        · rintro ⟨primes, hok⟩
          rw [herr] at hok
          cases hok
        · omega
    · intro primes hok
      rcases hspec with ⟨-, hok'⟩ | ⟨-, e, herr⟩
      · rw [hok] at hok'
        exact Except.ok.inj hok'
      · rw [herr] at hok
        cases hok
    · intro s hvisited
      have hinv := hvisited.inv (by omega)
      exact ⟨hinv.sorted, fun x => hinv.perm.mem_iff⟩
  · intro sk primes sk' hok
    unfold generateV8Key at hok
    split at hok
    case isTrue => cases hok
    case isFalse hin =>
      rw [not_not] at hin
      obtain ⟨primes', hprimes, hpair⟩ := bind_eq_ok.mp hok
      cases hpair
      rw [validateKey_iff]
      exact keyValid_of_generatePrimeNumbers hin.1 hin.2 hdraws hprimes

/-- Draws of two primes, one of them twice, and of a composite number. -/
def fourDraws (i : Nat) : Nat :=
  if i % 4 = 1 then 1000004 else if i % 4 = 3 then 1000033 else 1000003

/-- Both primes are found, and they make a valid key. -/
theorem generatePrimeNumbers_generateV8Key_spec_four_draws :
    ∃ primes, generatePrimeNumbers fourDraws 2 1000000 1000100 = .ok primes ∧
      primes = (hits primeTest fourDraws (4096 * 2)).take 2 ∧
      generateV8Key fourDraws (.ofList 32 []) 2 1000000 1000100 =
        .ok (primes, .ofList 32 []) ∧
      validateKey primes = .ok ⟨⟩ := by
  have hdraws : ∀ i, 1000000 ≤ fourDraws i ∧ fourDraws i ≤ 1000100 := by
    intro i
    unfold fourDraws
    split
    · decide
    · split <;> decide
  obtain ⟨hspec, hkey⟩ := @generatePrimeNumbers_generateV8Key_spec fourDraws 2 1000000 1000100
    hdraws (by decide)
  obtain ⟨hiff, hhits, -⟩ := hspec (by decide) (by decide) (by decide)
  have htwo : ({1000003, 1000033} : Finset Nat) ⊆
      ((Finset.range (4096 * 2)).image fourDraws).filter Nat.Prime := by
    intro p hp
    rw [Finset.mem_filter, Finset.mem_image]
    rcases Finset.mem_insert.mp hp with rfl | hp
    · exact ⟨⟨0, Finset.mem_range.mpr (by decide), rfl⟩, by norm_num⟩
    · rw [Finset.mem_singleton.mp hp]
      exact ⟨⟨3, Finset.mem_range.mpr (by decide), rfl⟩, by norm_num⟩
  obtain ⟨primes, hprimes⟩ := hiff.mpr (Finset.card_le_card htwo)
  have hgenerated : generateV8Key fourDraws (.ofList 32 []) 2 1000000 1000100 =
      .ok (primes, .ofList 32 []) := by
    rw [generateV8Key, if_neg (by decide), hprimes]
    rfl
  exact ⟨primes, hprimes, hhits primes hprimes, hgenerated, hkey _ _ _ hgenerated⟩

end Napqes.Rust
