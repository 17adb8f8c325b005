import Napqes.Rust.Proofs.Keygen
import Napqes.Python.Proofs.Keygen
import Napqes.C.Proofs.Keygen

/-!
# Generated keys in all ports

What one port generates from a part of the normative interval the validators of all ports accept,
where the count is one that they allow: Rust sees to it, Python and C do not. From the same draws
Rust and Python generate the same tuple.
-/

namespace Napqes

variable {mathSqrt : Nat → Nat}

/-! ## Acceptance -/

/-- All three validators take the tuple. -/
def AcceptedByPorts (mathSqrt : Nat → Nat) (primes : List Nat) : Prop :=
  Rust.validateKey primes = .ok ⟨⟩ ∧ Python.validateKey mathSqrt primes = .ok ⟨⟩ ∧
    C.validateKey (primes.map UInt64.ofNat) = true

theorem acceptedByPorts_iff (hsqrt : Python.SqrtExact mathSqrt) {primes : List Nat} :
    AcceptedByPorts mathSqrt primes ↔ KeyValid primes := by
  constructor
  · rintro ⟨hrust, -, -⟩
    exact (Rust.validateKey_iff _).mp hrust
  · intro h
    have hwords : C.primesNat (primes.map UInt64.ofNat) = primes := by
      rw [C.primesNat, List.map_map, List.map_congr_left (g := id), List.map_id]
      intro k hk
      exact UInt64.toNat_ofNat_of_lt' (Nat.lt_of_le_of_lt (h.range k hk).2 (by decide))
    refine ⟨(Rust.validateKey_iff _).mpr h, Python.validateKey_of_keyValid hsqrt h, ?_⟩
    rw [C.validateKey_iff, hwords]
    exact h

/-- Distinct primes of the interval are a key when there are neither none nor too many. -/
theorem keyValid_iff_of_distinct {primes : List Nat} (hnodup : primes.Nodup)
    (hmem : ∀ k ∈ primes, k.Prime ∧ 1000000 ≤ k ∧ k ≤ 14999999) :
    KeyValid primes ↔ 1 ≤ primes.length ∧ primes.length ≤ 128 := by
  constructor
  · intro h
    exact ⟨List.length_pos_iff.mpr h.nonempty, h.length_le⟩
  · rintro ⟨hone, hle⟩
    exact
      { nonempty := List.length_pos_iff.mp hone
        length_le := hle
        range := fun k hk => (hmem k hk).2
        prime := fun k hk => (hmem k hk).1
        nodup := hnodup }

/-- What a successful call of `napqes_generate_primes` leaves in `out`. -/
theorem C.of_napqesGeneratePrimes {count : Nat} {minVal maxVal : UInt64} {rng : List C.Outcome}
    {out : List C.Drawn} (hlow : C.minKeyPrime ≤ minVal) (hhigh : maxVal ≤ C.maxKeyPrime)
    (h : C.napqesGeneratePrimes count minVal maxVal rng = .ok (some (0, out))) :
    out.length = count ∧ (out.map (·.value.toNat)).Nodup ∧
      ∀ k ∈ out.map (·.value.toNat), k.Prime ∧ 1000000 ≤ k ∧ k ≤ 14999999 := by
  have hmin : 1000000 ≤ minVal.toNat := hlow
  have hmax : maxVal.toNat ≤ 14999999 := hhigh
  have hlt : minVal < maxVal := by
    by_contra hge
    rw [C.napqesGeneratePrimes, if_pos (UInt64.not_lt.mp hge)] at h
    cases h
  have hspan : maxVal - minVal + 1 ≠ 0 := by
    intro hzero
    obtain ⟨rfl, -⟩ := (C.span_eq_zero_iff hlt).mp hzero
    exact absurd hmin (by decide)
  rw [C.napqesGeneratePrimes_eq hlt hspan] at h
  obtain ⟨out', hloop, hrun⟩ := Option.map_eq_some_iff.mp (Except.ok.inj h)
  obtain ⟨hret, rfl⟩ := Prod.mk.inj hrun
  have hempty : C.Filled rng count 0 minVal (maxVal - minVal + 1) [] :=
    ⟨List.nodup_nil, by simp, Nat.le_refl _, Nat.zero_le _⟩
  have hfilled := C.filled_of_generateLoop hempty (fun _ ho => ho) hloop
  have hfull : out'.length = count := by
    by_contra hne
    rw [if_neg hne] at hret
    cases hret
  have hvalues : out'.map (·.value.toNat) = (out'.map C.Drawn.value).map UInt64.toNat := by
    rw [List.map_map]
    rfl
  refine ⟨hfull, ?_, ?_⟩
  · rw [hvalues]
    exact hfilled.nodup.map fun _ _ => UInt64.toNat_inj.mp
  · intro k hk
    obtain ⟨d, hd, rfl⟩ := List.mem_map.mp hk
    have hin := (hfilled.sound d hd).mem_primesIn hlt hspan
    rw [C.primesIn, Finset.mem_filter, Finset.mem_Icc] at hin
    exact ⟨hin.2, by omega, by omega⟩

/-- Every port accepts what any port has generated, for the counts that are allowed. -/
theorem generated_keys_accepted (hsqrt : Python.SqrtExact mathSqrt) :
    (∀ draws sk count minVal maxVal primes sk',
      (∀ i, minVal ≤ draws i ∧ draws i ≤ maxVal) →
      Rust.generateV8Key draws sk count minVal maxVal = .ok (primes, sk') →
        AcceptedByPorts mathSqrt primes) ∧
    (∀ draws sk (count minVal maxVal : Int) primes sk',
      (Python.minKeyPrime : Int) ≤ minVal → maxVal ≤ (Python.maxKeyPrime : Int) →
      (∀ i, (draws i : Int) ≤ maxVal - minVal) →
      Python.generateV8Key mathSqrt draws count minVal maxVal sk = .ok (primes, sk') →
        (AcceptedByPorts mathSqrt (primes.map Int.toNat) ↔ 1 ≤ count ∧ count ≤ 128)) ∧
    (∀ count minVal maxVal rng out, C.minKeyPrime ≤ minVal → maxVal ≤ C.maxKeyPrime →
      C.napqesGeneratePrimes count minVal maxVal rng = .ok (some (0, out)) →
        (AcceptedByPorts mathSqrt (out.map (·.value.toNat)) ↔ 1 ≤ count ∧ count ≤ 128)) := by
  refine ⟨?_, ?_, ?_⟩
  · intro draws sk count minVal maxVal primes sk' hdraws h
    rw [acceptedByPorts_iff hsqrt]
    rw [Rust.generateV8Key] at h
    split at h
    case isTrue => cases h
    case isFalse hin =>
      obtain ⟨primes', hprimes, hpair⟩ := bind_eq_ok.mp h
      cases hpair
      obtain ⟨hlow, hhigh⟩ := not_not.mp hin
      exact Rust.keyValid_of_generatePrimeNumbers hlow hhigh hdraws hprimes
  · intro draws sk count minVal maxVal primes sk' hlow hhigh hdraws h
    obtain ⟨primes', hprimes, hpair⟩ := bind_eq_ok.mp h
    cases hpair
    obtain ⟨hlen, hnodup, hmem⟩ :=
      Python.of_generatePrimeNumbers hsqrt hlow hhigh hdraws hprimes
    rw [acceptedByPorts_iff hsqrt, keyValid_iff_of_distinct hnodup hmem, List.length_map, hlen]
    omega
  · intro count minVal maxVal rng out hlow hhigh h
    obtain ⟨hlen, hnodup, hmem⟩ := C.of_napqesGeneratePrimes hlow hhigh h
    rw [acceptedByPorts_iff hsqrt, keyValid_iff_of_distinct hnodup hmem, List.length_map, hlen]

theorem prime_1000003 : Nat.Prime 1000003 := keyValid_1000003.prime _ List.mem_cons_self

/-- A source that always gives 3. -/
theorem python_generatePrimeNumbers_three :
    Python.generatePrimeNumbers Nat.sqrt (fun _ => 3) 1 1000000 1000010 = .ok [1000003] := by
  have hprime : Python.isPrimeInt Nat.sqrt (Python.number (fun _ => 3) 1000000 0) = true :=
    (Python.isPrime_iff (fun _ _ => rfl) (by decide)).mpr prime_1000003
  have hturn := @Python.generateLoop_turn Nat.sqrt (fun _ => 3) 1 1000000 1000010 [] 0
    (by decide) (by decide)
  have hstop := @Python.generateLoop_stop Nat.sqrt (fun _ => 3) 1 1000000 1000010
    ((1000010 - 1000000) * 4) [1000003] 1 (by decide)
  rw [if_pos ⟨List.not_mem_nil, hprime⟩] at hturn
  rw [Python.generatePrimeNumbers, hturn.trans hstop]
  rfl

theorem generated_keys_accepted_three :
    Python.generateV8Key Nat.sqrt (fun _ => 3) 1 1000000 1000010 (.ofList 32 []) =
        .ok ([1000003], .ofList 32 []) ∧
      AcceptedByPorts Nat.sqrt [1000003] := by
  have hspec := @generated_keys_accepted Nat.sqrt fun _ _ => rfl
  have hrun : Python.generateV8Key Nat.sqrt (fun _ => 3) 1 1000000 1000010 (.ofList 32 []) =
      .ok ([1000003], .ofList 32 []) :=
    bind_eq_ok.mpr ⟨[1000003], python_generatePrimeNumbers_three, rfl⟩
  exact ⟨hrun, (hspec.2.1 _ _ _ _ _ _ _ (by decide) (by decide) (fun _ => by decide) hrun).mpr
    (by decide)⟩

/-! ## Agreement -/

/-- The primes that Python has drawn are those that Rust has drawn. -/
theorem drawnPrimes_eq (hsqrt : Python.SqrtExact mathSqrt) {draws : Nat → Nat} {minVal : Nat}
    (hdraws : ∀ i, minVal + draws i < 2 ^ 52) (maxVal : Nat) :
    Python.drawnPrimes mathSqrt draws minVal maxVal =
      (hits primeTest (fun i => minVal + draws i) (4 * (maxVal - minVal))).map Int.ofNat := by
  have hbudget : (((maxVal : Int) - minVal) * 4).toNat = 4 * (maxVal - minVal) := by omega
  have hnumber : ∀ i, Python.number draws minVal i = Int.ofNat (minVal + draws i) := by
    intro i
    rw [Python.number, Int.add_comm]
    rfl
  have hprime : ∀ i, Python.isPrimeInt mathSqrt (Int.ofNat (minVal + draws i)) = true ↔
      primeTest (minVal + draws i) = true := by
    intro i
    rw [primeTest_iff]
    exact Python.isPrime_iff hsqrt (hdraws i)
  rw [Python.drawnPrimes, hbudget]
  induction 4 * (maxVal - minVal) with
  | zero => rfl
  | succ t ih =>
      have hnew : Int.ofNat (minVal + draws t) ∉
          (hits primeTest (fun i => minVal + draws i) t).map Int.ofNat ↔
            minVal + draws t ∉ hits primeTest (fun i => minVal + draws i) t :=
        not_congr (List.mem_map_of_injective fun _ _ => Int.ofNat.inj)
      rw [hits_succ, hits_succ, ih, hnumber, apply_ite (List.map Int.ofNat), List.map_append,
        List.map_singleton]
      exact if_congr (and_congr hnew (hprime t)) rfl rfl

/-- On the same draws Rust and Python return the same tuple when both return one. Python returns
one whenever Rust does, unless the range is shorter than the Rust budget. -/
theorem generated_keys_agree (hsqrt : Python.SqrtExact mathSqrt) {draws : Nat → Nat}
    {count minVal maxVal : Nat} {primes : List Nat} (hmax : maxVal < 2 ^ 52)
    (hdraws : ∀ i, minVal + draws i ≤ maxVal)
    (h : Rust.generatePrimeNumbers (fun i => minVal + draws i) count minVal maxVal = .ok primes) :
    (Python.generatePrimeNumbers mathSqrt draws count minVal maxVal = .ok (primes.map Int.ofNat) ∨
      Python.generatePrimeNumbers mathSqrt draws count minVal maxVal =
        .error (Python.tooFew count minVal maxVal)) ∧
    (1024 * count ≤ maxVal - minVal →
      Python.generatePrimeNumbers mathSqrt draws count minVal maxVal =
        .ok (primes.map Int.ofNat)) := by
  obtain ⟨-, -, henough, rfl⟩ := Rust.of_generatePrimeNumbers h
  rw [Rust.hits_isPrime fun i => Nat.lt_of_le_of_lt (hdraws i) (by omega)] at henough ⊢
  have hpython := Python.generatePrimeNumbers_eq mathSqrt draws count minVal maxVal
  rw [drawnPrimes_eq hsqrt (fun i => Nat.lt_of_le_of_lt (hdraws i) hmax), List.length_map,
    Int.toNat_natCast, ← List.map_take] at hpython
  constructor
  · split at hpython
    case isTrue hfull =>
      refine Or.inl ?_
      rcases Nat.le_total (4096 * count) (4 * (maxVal - minVal)) with hle | hle
      · rw [hpython, take_hits_of_le hle henough]
      · rw [hpython, take_hits_of_le hle hfull]
    case isFalse => exact Or.inr hpython
  · intro hwide
    have hle : 4096 * count ≤ 4 * (maxVal - minVal) := by omega
    rw [hpython, if_pos (henough.trans (hits_isPrefix _ _ hle).length_le),
      take_hits_of_le hle henough]

theorem generated_keys_agree_three :
    ∃ primes, Rust.generatePrimeNumbers (fun _ => 1000000 + 3) 1 1000000 1002000 = .ok primes ∧
      Python.generatePrimeNumbers Nat.sqrt (fun _ => 3) (1 : Nat) (1000000 : Nat) (1002000 : Nat) =
        .ok (primes.map Int.ofNat) := by
  have hone : (hits Rust.isPrime (fun _ => 1000000 + 3) 1).length = 1 := by
    have hprime := (Rust.isPrime_iff (by decide)).mpr prime_1000003
    rw [hits_succ, hits_zero, if_pos ⟨List.not_mem_nil, hprime⟩]
    rfl
  have hmore := (hits_isPrefix Rust.isPrime (fun _ => 1000000 + 3)
    (show 1 ≤ 4096 * 1 by decide)).length_le
  rcases @Rust.generatePrimeNumbers_eq (fun _ => 1000000 + 3) 1 1000000 1002000 (by decide)
    (by decide) (by decide) with ⟨-, hok⟩ | ⟨hfew, -⟩
  · exact ⟨_, hok, (@generated_keys_agree Nat.sqrt (fun _ _ => rfl) (fun _ => 3) 1 1000000 1002000 _
      (by decide) (fun _ => by decide) hok).2 (by decide)⟩
  · omega

end Napqes
