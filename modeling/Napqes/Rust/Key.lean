import Napqes.Rust.Basic
import Napqes.Misc.TrialDivision

/-!
# Key validation (`rust/src/lib.rs:136-522`, `rust/src/key.rs`)

Trial division, the key policy `validate_key` and the validated key type `NapqesKey`.
`validateKey_iff` says once what an accepted tuple is; later files only use `KeyValid`.
-/

namespace Napqes.Rust

def minKeyPrime : Nat := 1000000
def maxKeyPrime : Nat := 14999999
def maxKeyElements : Nat := 128
def maxSerialisableKeyPrime : Nat := 2 ^ 40 - 1
abbrev skSize : Nat := 32

/-- `SMALL_ODD_PRIMES` (`lib.rs:191`). -/
def smallOddPrimes : List Nat := [3, 5, 7, 11, 13, 17, 19, 23, 29, 31, 37, 41, 43, 47, 53]

/-! ## Integer square root -/

/-- First loop of `isqrt_u64` (`lib.rs:194-199`): lower the estimate while its square is
above `n` or leaves `u64`. -/
def isqrtDown (n r : Nat) : Nat :=
  if 2 ^ 64 ≤ r * r ∨ n < r * r then isqrtDown n (r - 1) else r
termination_by r
decreasing_by
  rcases Nat.eq_zero_or_pos r with rfl | hr
  · simp at *
  · omega

/-- Second loop of `isqrt_u64` (`lib.rs:200-203`). -/
def isqrtUp (n r : Nat) : Nat :=
  if (r + 1) * (r + 1) < 2 ^ 64 ∧ (r + 1) * (r + 1) ≤ n then isqrtUp n (r + 1) else r
termination_by n - r
decreasing_by
  have : r + 1 ≤ (r + 1) * (r + 1) := Nat.le_mul_self (r + 1)
  omega

/-- `isqrt_u64` (`lib.rs:194`), where `est` is the value of `(n as f64).sqrt() as u64`. -/
def isqrtU64 (est n : Nat) : Nat := isqrtUp n (isqrtDown n est)

theorem isqrtDown_sq_le (n r : Nat) : isqrtDown n r * isqrtDown n r ≤ n := by
  fun_induction isqrtDown n r with
  | case1 r h ih => exact ih
  | case2 r h => omega

theorem isqrtUp_eq_sqrt {n r : Nat} (hn : n < 2 ^ 64) (h : r * r ≤ n) :
    isqrtUp n r = n.sqrt := by
  fun_induction isqrtUp n r with
  | case1 r hcond ih => exact ih hcond.2
  | case2 r hcond => exact Nat.eq_sqrt.mpr ⟨h, by omega⟩

/-- The corrected root does not depend on the floating-point estimate. -/
theorem isqrtU64_eq_sqrt {n : Nat} (est : Nat) (hn : n < 2 ^ 64) : isqrtU64 est n = n.sqrt :=
  isqrtUp_eq_sqrt hn (isqrtDown_sq_le n est)

/-! ## Primality -/

/-- `is_prime` (`lib.rs:209-230`) for a given floating-point square-root estimate. -/
def isPrimeWith (est n : Nat) : Bool :=
  if n < 2 then false
  else if n % 2 == 0 then n == 2
  else
    match smallOddPrimes.find? (fun p => n % p == 0) with
    | some p => n == p
    | none => oddScan n (isqrtU64 est n) 59

/-- `is_prime` with the exact root as the estimate; any other gives the same answer
(`isPrimeWith_iff`). -/
def isPrime (n : Nat) : Bool := isPrimeWith n.sqrt n

/-- Every odd number from 3 to 57 has a factor among the small primes. -/
theorem exists_small_factor : ∀ d < 59, 3 ≤ d → d % 2 = 1 → ∃ p ∈ smallOddPrimes, p ∣ d := by
  decide

theorem prime_of_mem_smallOddPrimes : ∀ p ∈ smallOddPrimes, p.Prime := by
  intro p hp
  simp only [smallOddPrimes, List.mem_cons, List.not_mem_nil, or_false] at hp
  rcases hp with rfl | rfl | rfl | rfl | rfl | rfl | rfl | rfl | rfl | rfl | rfl | rfl | rfl |
    rfl | rfl <;> norm_num

theorem isPrimeWith_iff {n : Nat} (est : Nat) (hn : n < 2 ^ 64) :
    isPrimeWith est n = true ↔ n.Prime := by
  unfold isPrimeWith
  split
  case isTrue hlt =>
    simp only [Bool.false_eq_true, false_iff]
    exact fun hp => absurd hp.two_le (by omega)
  case isFalse hge =>
    split
    case isTrue heven =>
      simp only [beq_iff_eq] at heven ⊢
      constructor
      · rintro rfl
        exact Nat.prime_two
      · intro hp
        rcases (Nat.dvd_prime hp).mp (Nat.dvd_of_mod_eq_zero heven) with h | h <;> omega
    case isFalse hodd =>
      simp only [beq_iff_eq] at hodd
      split
      case h_1 p hfind =>
        have hmem := List.mem_of_find?_eq_some hfind
        have hdvd : p ∣ n := by
          have := List.find?_some hfind
          simp only [beq_iff_eq] at this
          exact Nat.dvd_of_mod_eq_zero this
        have hp := prime_of_mem_smallOddPrimes p hmem
        simp only [beq_iff_eq]
        constructor
        · rintro rfl
          exact hp
        · intro hprime
          rcases (Nat.dvd_prime hprime).mp hdvd with h | h
          · exact absurd h hp.ne_one
          · exact h.symm
      case h_2 hfind =>
        rw [isqrtU64_eq_sqrt est hn]
        apply oddScan_sqrt_eq_true (by omega) (by omega) (by decide)
        · intro d hd hlt hpar hdvd
          obtain ⟨p, hp, hpd⟩ := exists_small_factor d hlt hd hpar
          have hnot := List.find?_eq_none.mp hfind p hp
          simp only [beq_iff_eq] at hnot
          exact hnot (Nat.mod_eq_zero_of_dvd (hpd.trans hdvd))
        · intro _
          decide

theorem isPrime_iff {n : Nat} (hn : n < 2 ^ 64) : isPrime n = true ↔ n.Prime :=
  isPrimeWith_iff n.sqrt hn

/-! ## `validate_key` -/

/-- The range checks of the first loop (`lib.rs:477-501`). -/
def checkKeyRange (entry : Nat × Nat) : RustM String PUnit :=
  let (k, i) := entry
  if k < minKeyPrime then
    err s!"Key element at index {i} ({k}) is below the minimum of {minKeyPrime}."
  else if k > maxKeyPrime then
    err s!"Key element at index {i} ({k}) exceeds MAX_KEY_PRIME ({maxKeyPrime})."
  else if k > maxSerialisableKeyPrime then
    err (s!"Key element at index {i} ({k}) exceeds {maxSerialisableKeyPrime}, the largest " ++
      "value representable in the 5-byte key serialisation.")
  else pure ⟨⟩

/-- The primality check of the second loop (`lib.rs:502-506`). -/
def checkKeyPrime (entry : Nat × Nat) : RustM String PUnit :=
  let (k, i) := entry
  if isPrime k then pure ⟨⟩ else err s!"Key element at index {i} ({k}) is not prime."

/-- The pairwise scan (`lib.rs:511-520`): every element against the later ones. -/
def checkKeyDistinct : List (Nat × Nat) → RustM String PUnit
  | [] => pure ⟨⟩
  | (k, i) :: rest => do
      rest.forM fun (k', j) =>
        if k == k' then
          err (s!"Key element at index {j} duplicates index {i}; " ++
            "all elements must be distinct.")
        else pure ⟨⟩
      checkKeyDistinct rest

/-- `validate_key` (`lib.rs:462-522`). -/
def validateKey (key : List Nat) : RustM String PUnit :=
  if key.isEmpty then err "Key must be a non-empty list of primes."
  else if key.length > maxKeyElements then
    let count := key.length
    err (s!"Key has {count} elements, exceeding MAX_KEY_ELEMENTS ({maxKeyElements}). " ++
      "Very large keys are rejected because per-message primality/distinctness " ++
      "validation grows with K; the cap makes the cost of legitimate use bounded.")
  else do
    key.zipIdx.forM checkKeyRange
    key.zipIdx.forM checkKeyPrime
    checkKeyDistinct key.zipIdx

theorem checkKeyRange_eq_ok (k i : Nat) :
    checkKeyRange (k, i) = .ok ⟨⟩ ↔ minKeyPrime ≤ k ∧ k ≤ maxKeyPrime := by
  unfold checkKeyRange
  simp only [err, pure, Except.pure]
  split_ifs with hlow hhigh hser
  · simp only [false_iff]
    omega
  · simp only [false_iff]
    omega
  · simp only [maxKeyPrime, maxSerialisableKeyPrime] at hhigh hser
    omega
  · simp only [true_iff]
    omega

theorem checkKeyPrime_eq_ok (k i : Nat) : checkKeyPrime (k, i) = .ok ⟨⟩ ↔ isPrime k = true := by
  simp only [checkKeyPrime, err, pure, Except.pure]
  split <;> simp_all

theorem checkKeyDistinct_eq_ok (entries : List (Nat × Nat)) :
    checkKeyDistinct entries = .ok ⟨⟩ ↔ (entries.map Prod.fst).Nodup := by
  induction entries with
  | nil => simp [checkKeyDistinct, pure, Except.pure]
  | cons entry rest ih =>
      obtain ⟨k, i⟩ := entry
      have hscan : rest.forM (fun (e : Nat × Nat) =>
          if k == e.1 then
            (err (s!"Key element at index {e.2} duplicates index {i}; " ++
              "all elements must be distinct.") : RustM String PUnit)
          else pure ⟨⟩) = .ok ⟨⟩ ↔ k ∉ rest.map Prod.fst := by
        rw [forM_eq_ok]
        constructor
        · intro h hmem
          obtain ⟨e, he, rfl⟩ := List.mem_map.mp hmem
          have := h e he
          simp [err] at this
        · intro h e he
          have hne : k ≠ e.1 := fun heq => h (heq ▸ List.mem_map.mpr ⟨e, he, rfl⟩)
          simp [hne, pure, Except.pure]
      rw [List.map_cons, List.nodup_cons, ← ih, ← hscan, checkKeyDistinct, bind_eq_ok]
      constructor
      · rintro ⟨⟨⟩, hfor, hrest⟩
        exact ⟨hfor, hrest⟩
      · rintro ⟨hfor, hrest⟩
        exact ⟨⟨⟩, hfor, hrest⟩

theorem forM_zipIdx_eq_ok {key : List Nat} {f : Nat × Nat → RustM String PUnit}
    {P : Nat → Prop} (hf : ∀ k i, f (k, i) = .ok ⟨⟩ ↔ P k) :
    key.zipIdx.forM f = .ok ⟨⟩ ↔ ∀ k ∈ key, P k := by
  rw [forM_eq_ok]
  constructor
  · intro h k hk
    obtain ⟨i, hi, rfl⟩ := List.mem_iff_getElem.mp hk
    exact (hf _ i).mp (h (key[i], i) (List.mem_zipIdx_iff_getElem?.mpr (by simp [hi])))
  · rintro h ⟨k, i⟩ hmem
    have hget := List.mem_zipIdx_iff_getElem?.mp hmem
    exact (hf k i).mpr (h k (List.mem_of_getElem? hget))

theorem returns_checkKeyDistinct (entries : List (Nat × Nat)) :
    Returns (checkKeyDistinct entries) := by
  induction entries with
  | nil => exact .ok _
  | cons entry rest ih =>
      refine .bind (.forM ?_) fun _ _ => ih
      intro later _
      dsimp only
      split
      · exact .err _
      · exact .ok _

/-- The key check does not panic. -/
theorem returns_validateKey (key : List Nat) : Returns (validateKey key) := by
  unfold validateKey
  split
  · exact .err _
  · split
    · exact .err _
    · refine .bind (.forM ?_) fun _ _ => .bind (.forM ?_) fun _ _ => returns_checkKeyDistinct _
      · intro entry _
        unfold checkKeyRange
        dsimp only
        split
        · exact .err _
        · split
          · exact .err _
          · split
            · exact .err _
            · exact .ok _
      · intro entry _
        unfold checkKeyPrime
        dsimp only
        split
        · exact .ok _
        · exact .err _

/-- `validate_key` accepts exactly the tuples of the key policy. -/
theorem validateKey_iff (key : List Nat) : validateKey key = .ok ⟨⟩ ↔ KeyValid key := by
  have hrange := @forM_zipIdx_eq_ok key _ _ checkKeyRange_eq_ok
  have hprime := @forM_zipIdx_eq_ok key _ _ checkKeyPrime_eq_ok
  have hdistinct := checkKeyDistinct_eq_ok key.zipIdx
  rw [List.zipIdx_map_fst] at hdistinct
  unfold validateKey
  split
  case isTrue hempty =>
    simp only [List.isEmpty_iff] at hempty
    simp only [err, reduceCtorEq, false_iff]
    exact fun h => h.nonempty hempty
  case isFalse hne =>
    split
    case isTrue hlong =>
      simp only [err, reduceCtorEq, false_iff]
      exact fun h => absurd h.length_le (by simpa [maxKeyElements] using hlong)
    case isFalse hlen =>
      simp only [bind_eq_ok]
      constructor
      · rintro ⟨⟨⟩, hr, ⟨⟩, hp, hd⟩
        have hr' := hrange.mp hr
        exact
          { nonempty := by simpa using hne
            length_le := by simpa [maxKeyElements] using hlen
            range := hr'
            prime := fun k hk => (isPrime_iff (by
              have := (hr' k hk).2
              simp only [maxKeyPrime] at this
              omega)).mp (hprime.mp hp k hk)
            nodup := hdistinct.mp hd }
      · intro h
        refine ⟨⟨⟩, hrange.mpr h.range, ⟨⟩, hprime.mpr fun k hk => ?_, hdistinct.mpr h.nodup⟩
        have := (h.range k hk).2
        exact (isPrime_iff (by omega)).mpr (h.prime k hk)

/-! ## Validated keys -/

/-- `NapqesKey` (`key.rs:46-49`): a prime tuple that passed `validate_key`, with `sk`. The
field `valid` is what the constructor checked; zeroization on drop has no value to model. -/
structure NapqesKey where
  primes : List Nat
  sk : FixedBytes skSize
  valid : validateKey primes = .ok ⟨⟩
  deriving DecidableEq

/-- `NapqesKey::new` (`key.rs:60-68`). -/
def NapqesKey.new (primes : List Nat) (sk : FixedBytes skSize) : RustM String NapqesKey :=
  match h : validateKey primes with
  | .error e => .error e
  | .ok ⟨⟩ => .ok ⟨primes, sk, h⟩

theorem NapqesKey.new_eq_ok {primes : List Nat} (h : validateKey primes = .ok ⟨⟩)
    (sk : FixedBytes skSize) : NapqesKey.new primes sk = .ok ⟨primes, sk, h⟩ := by
  unfold NapqesKey.new
  split
  case h_1 e he =>
    rw [h] at he
    cases he
  case h_2 => rfl

theorem validateKey_1000003 : validateKey [1000003] = .ok ⟨⟩ :=
  (validateKey_iff _).mpr keyValid_1000003

theorem NapqesKey.keyValid (key : NapqesKey) : KeyValid key.primes :=
  (validateKey_iff key.primes).mp key.valid

end Napqes.Rust
