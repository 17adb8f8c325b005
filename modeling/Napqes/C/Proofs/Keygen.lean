import Napqes.C.Keygen

/-!
# Which primes `napqes_generate_primes` returns

A failed draw is a draw of 0, and 0 is the draw of `min_val`. Where `min_val` is a prime a failure
is therefore taken for one, unless the call cannot succeed at all: the range has too few primes, or
the budget of attempts, which wraps, is smaller than the number of primes asked for. Over the whole
range of the word `span` wraps to 0.
-/

namespace Napqes.C

variable {count : Nat} {minVal maxVal span limit : UInt64}

/-! ## The draws -/

theorem drawBelow_eq_some {rng rng' : List Outcome} {x : UInt64} {o : Outcome}
    (h : drawBelow limit rng = some (x, o, rng')) :
    x = secureRandU64 o ∧ o ∈ rng ∧ ∀ o' ∈ rng', o' ∈ rng := by
  induction rng with
  | nil => cases h
  | cons o' rng ih =>
      rw [drawBelow] at h
      split at h
      case isTrue =>
        obtain ⟨hx, hmem, hrest⟩ := ih h
        exact ⟨hx, List.mem_cons_of_mem _ hmem, fun o ho => List.mem_cons_of_mem _ (hrest o ho)⟩
      case isFalse hlt =>
        cases h
        exact ⟨rfl, List.mem_cons_self .., fun o ho => List.mem_cons_of_mem _ ho⟩

theorem drawBelow_cons_of_lt {o : Outcome} (h : secureRandU64 o < limit) (rng : List Outcome) :
    drawBelow limit (o :: rng) = some (secureRandU64 o, o, rng) := by
  rw [drawBelow]
  exact if_neg (UInt64.not_le.mpr h)

/-- What holds of every element: a prime, computed from the draw of one of the outcomes. -/
structure Drawn.Sound (rng : List Outcome) (minVal span : UInt64) (d : Drawn) : Prop where
  prime : napqesIsPrime d.value = true
  outcome_mem : d.outcome ∈ rng
  value_eq : d.value = minVal + secureRandU64 d.outcome % span

/-- Distinct sound elements, no more than there are attempts or places. -/
structure Filled (rng : List Outcome) (count bound : Nat) (minVal span : UInt64)
    (out : List Drawn) : Prop where
  nodup : (out.map Drawn.value).Nodup
  sound : ∀ d ∈ out, d.Sound rng minVal span
  length_le : out.length ≤ bound
  length_le_count : out.length ≤ count

/-- A new sound element keeps the elements distinct and sound, and takes a place. -/
theorem Filled.concat {rng : List Outcome} {bound : Nat} {out : List Drawn} {d : Drawn}
    (h : Filled rng count bound minVal span out) (hd : d.Sound rng minVal span)
    (hnew : ¬ out.any (·.value == d.value) = true) (hlt : out.length < count) :
    Filled rng count (bound + 1) minVal span (out ++ [d]) where
  nodup := by
    rw [List.map_append, List.nodup_append]
    refine ⟨h.nodup, by simp, ?_⟩
    intro a ha b hb heq
    obtain rfl := List.mem_singleton.mp hb
    obtain ⟨d', hd', rfl⟩ := List.mem_map.mp ha
    exact hnew (List.any_eq_true.mpr ⟨d', hd', beq_iff_eq.mpr heq⟩)
  sound := by
    intro d' hd'
    rcases List.mem_append.mp hd' with hd' | hd'
    · exact h.sound d' hd'
    · exact List.mem_singleton.mp hd' ▸ hd
  length_le := by
    rw [List.length_append]
    exact Nat.succ_le_succ h.length_le
  length_le_count := by
    rw [List.length_append]
    exact hlt

theorem Filled.mono {rng : List Outcome} {bound bound' : Nat} {out : List Drawn}
    (h : Filled rng count bound minVal span out) (hle : bound ≤ bound') :
    Filled rng count bound' minVal span out :=
  ⟨h.nodup, h.sound, Nat.le_trans h.length_le hle, h.length_le_count⟩

theorem filled_of_generateLoop {attempts bound : Nat} {all rng : List Outcome}
    {out out' : List Drawn} (hout : Filled all count bound minVal span out)
    (hall : ∀ o ∈ rng, o ∈ all)
    (h : generateLoop count minVal span limit attempts rng out = some out') :
    Filled all count (bound + attempts) minVal span out' := by
  induction attempts generalizing rng out bound with
  | zero =>
      obtain rfl := Option.some.inj h
      exact hout
  | succ attempts ih =>
      rw [generateLoop] at h
      split at h
      case isFalse =>
        obtain rfl := Option.some.inj h
        exact hout.mono (Nat.le_add_right _ _)
      case isTrue hfill =>
        split at h
        case h_1 => cases h
        case h_2 x o rng' hdraw =>
          obtain ⟨hx, hmem, hrest⟩ := drawBelow_eq_some hdraw
          have hall' : ∀ o ∈ rng', o ∈ all := fun o ho => hall o (hrest o ho)
          dsimp only at h
          split at h
          case isTrue => exact (ih hout hall' h).mono (Nat.add_le_add_left (Nat.le_succ _) _)
          case isFalse hprime =>
            split at h
            case isTrue => exact (ih hout hall' h).mono (Nat.add_le_add_left (Nat.le_succ _) _)
            case isFalse hnew =>
              have hd : (⟨minVal + x % span, o⟩ : Drawn).Sound all minVal span :=
                ⟨by simpa using hprime, hall o hmem, by rw [hx]⟩
              exact (ih (hout.concat hd hnew hfill) hall' h).mono
                (Nat.le_of_eq (Nat.add_right_comm _ _ _))

/-! ## The range -/

theorem toNat_span (hlt : minVal < maxVal) (hspan : maxVal - minVal + 1 ≠ 0) :
    (maxVal - minVal + 1).toNat = maxVal.toNat - minVal.toNat + 1 := by
  have hle : minVal.toNat < maxVal.toNat := hlt
  have hmax := maxVal.toNat_lt
  have hsub : (maxVal - minVal).toNat = maxVal.toNat - minVal.toNat :=
    UInt64.toNat_sub_of_le _ _ (Nat.le_of_lt hle)
  have hne : (maxVal - minVal + 1).toNat ≠ 0 := fun h => hspan (UInt64.toNat_inj.mp h)
  rw [UInt64.toNat_add, hsub] at hne ⊢
  rw [show (1 : UInt64).toNat = 1 from rfl] at hne ⊢
  omega

theorem toNat_limit (span : UInt64) :
    ((UInt64.ofNat (2 ^ 64 - 1) / span) * span).toNat =
      (2 ^ 64 - 1) / span.toNat * span.toNat := by
  have hmax : (UInt64.ofNat (2 ^ 64 - 1)).toNat = 2 ^ 64 - 1 := rfl
  rw [UInt64.toNat_mul, UInt64.toNat_div, hmax]
  exact Nat.mod_eq_of_lt (Nat.lt_of_le_of_lt (Nat.div_mul_le_self _ _) (by decide))

/-- Every offset into the range is below the limit. -/
theorem span_le_limit (hspan : span ≠ 0) :
    span.toNat ≤ ((UInt64.ofNat (2 ^ 64 - 1) / span) * span).toNat := by
  have hpos : 0 < span.toNat := Nat.pos_of_ne_zero fun h => hspan (UInt64.toNat_inj.mp h)
  have hle : span.toNat ≤ 2 ^ 64 - 1 := Nat.le_pred_of_lt span.toNat_lt
  rw [toNat_limit]
  exact Nat.le_mul_of_pos_left _ (Nat.div_pos hle hpos)

/-- The number of a draw lies in the range. -/
theorem toNat_number (hlt : minVal < maxVal) (hspan : maxVal - minVal + 1 ≠ 0) (x : UInt64) :
    (minVal + x % (maxVal - minVal + 1)).toNat =
      minVal.toNat + x.toNat % (maxVal.toNat - minVal.toNat + 1) := by
  have hle : minVal.toNat < maxVal.toNat := hlt
  have hmax := maxVal.toNat_lt
  have hmod : x.toNat % (maxVal.toNat - minVal.toNat + 1) < maxVal.toNat - minVal.toNat + 1 :=
    Nat.mod_lt _ (Nat.succ_pos _)
  rw [UInt64.toNat_add, UInt64.toNat_mod, toNat_span hlt hspan]
  exact Nat.mod_eq_of_lt (by omega)

/-- The primes of a range. -/
def primesIn (minVal maxVal : UInt64) : Finset Nat :=
  (Finset.Icc minVal.toNat maxVal.toNat).filter Nat.Prime

theorem Drawn.Sound.mem_primesIn {rng : List Outcome} {d : Drawn} (hlt : minVal < maxVal)
    (hspan : maxVal - minVal + 1 ≠ 0) (h : d.Sound rng minVal (maxVal - minVal + 1)) :
    d.value.toNat ∈ primesIn minVal maxVal := by
  have hle : minVal.toNat < maxVal.toNat := hlt
  have hmod : (secureRandU64 d.outcome).toNat % (maxVal.toNat - minVal.toNat + 1) <
      maxVal.toNat - minVal.toNat + 1 := Nat.mod_lt _ (Nat.succ_pos _)
  have hvalue : d.value.toNat = minVal.toNat +
      (secureRandU64 d.outcome).toNat % (maxVal.toNat - minVal.toNat + 1) := by
    rw [h.value_eq, toNat_number hlt hspan]
  rw [primesIn, Finset.mem_filter, Finset.mem_Icc]
  exact ⟨by omega, (napqesIsPrime_iff _).mp h.prime⟩

/-- There are no more elements than primes. -/
theorem Filled.length_le_card {rng : List Outcome} {bound : Nat} {out : List Drawn}
    (hlt : minVal < maxVal) (hspan : maxVal - minVal + 1 ≠ 0)
    (h : Filled rng count bound minVal (maxVal - minVal + 1) out) :
    out.length ≤ (primesIn minVal maxVal).card := by
  have hmap : out.map (·.value.toNat) = (out.map Drawn.value).map UInt64.toNat := by
    rw [List.map_map]
    rfl
  have hnodup : (out.map (·.value.toNat)).Nodup := by
    rw [hmap]
    exact h.nodup.map fun a b => UInt64.toNat_inj.mp
  rw [← List.length_map (·.value.toNat), ← List.toFinset_card_of_nodup hnodup]
  apply Finset.card_le_card
  intro n hn
  obtain ⟨d, hd, rfl⟩ := List.mem_map.mp (List.mem_toFinset.mp hn)
  exact (h.sound d hd).mem_primesIn hlt hspan

/-! ## A run that takes every draw -/

theorem generateLoop_of_all_taken {attempts : Nat} {rng : List Outcome} {ds out : List Drawn}
    (hsound : ∀ d ∈ ds, d.Sound rng minVal span)
    (hlimit : ∀ d ∈ ds, secureRandU64 d.outcome < limit)
    (hnodup : ((out ++ ds).map Drawn.value).Nodup) (hattempts : ds.length ≤ attempts)
    (hcount : out.length + ds.length = count) :
    generateLoop count minVal span limit attempts (ds.map Drawn.outcome) out =
      some (out ++ ds) := by
  induction ds generalizing attempts out with
  | nil =>
      rw [List.append_nil]
      cases attempts with
      | zero => rfl
      | succ attempts =>
          rw [generateLoop, if_neg]
          rw [List.length_nil] at hcount
          omega
  | cons d ds ih =>
      rw [List.length_cons] at hattempts hcount
      obtain ⟨attempts, rfl⟩ := Nat.exists_eq_succ_of_ne_zero (show attempts ≠ 0 by omega)
      have hd := hsound d (List.mem_cons_self ..)
      have hnew : ¬ out.any (·.value == d.value) = true := by
        intro hany
        obtain ⟨d', hd', heq⟩ := List.any_eq_true.mp hany
        rw [List.map_append, List.map_cons, List.nodup_append] at hnodup
        exact hnodup.2.2 _ (List.mem_map_of_mem hd') _ (List.mem_cons_self ..) (beq_iff_eq.mp heq)
      rw [List.map_cons, generateLoop, if_pos (by omega),
        drawBelow_cons_of_lt (hlimit d (List.mem_cons_self ..))]
      dsimp only
      rw [← hd.value_eq, hd.prime, if_neg (by decide), if_neg hnew]
      rw [ih (fun d' hd' => hsound d' (List.mem_cons_of_mem _ hd'))
        (fun d' hd' => hlimit d' (List.mem_cons_of_mem _ hd')) (by simpa using hnodup) (by omega)
        (by rw [List.length_append, List.length_singleton]; omega)]
      simp

/-! ## The contract -/

/-- What the header promises, over all sequences of outcomes: the call divides by nothing that is
zero, and when it returns 0 then `out` holds `count` distinct primes of the range, each of them
computed from eight random bytes; the only other result is -1. -/
def KeepsContract (count : Nat) (minVal maxVal : UInt64) : Prop :=
  ∀ rng, ∃ run, napqesGeneratePrimes count minVal maxVal rng = .ok run ∧
    ∀ ret out, run = some (ret, out) →
      (ret = 0 ∨ ret = -1) ∧
      (ret = 0 → out.length = count ∧ (out.map Drawn.value).Nodup ∧
        ∀ d ∈ out, d.value.toNat.Prime ∧ minVal ≤ d.value ∧ d.value ≤ maxVal ∧
          ∃ b, some b ∈ rng ∧ d.outcome = some b ∧
            d.value = minVal + secureRandU64 (some b) % (maxVal - minVal + 1))

theorem span_eq_zero_iff (hlt : minVal < maxVal) :
    maxVal - minVal + 1 = 0 ↔ minVal = 0 ∧ maxVal.toNat = 2 ^ 64 - 1 := by
  have hle : minVal.toNat < maxVal.toNat := hlt
  have hmax := maxVal.toNat_lt
  have hsub : (maxVal - minVal).toNat = maxVal.toNat - minVal.toNat :=
    UInt64.toNat_sub_of_le _ _ (Nat.le_of_lt hle)
  rw [← UInt64.toNat_inj, ← UInt64.toNat_inj, UInt64.toNat_add, hsub,
    show (1 : UInt64).toNat = 1 from rfl, show (0 : UInt64).toNat = 0 from rfl]
  omega

theorem toNat_maxAttempts (hlt : minVal < maxVal) (hspan : maxVal - minVal + 1 ≠ 0) :
    ((maxVal - minVal + 1) * 4).toNat =
      4 * (maxVal.toNat - minVal.toNat + 1) % 2 ^ 64 := by
  rw [UInt64.toNat_mul, toNat_span hlt hspan, Nat.mul_comm]
  rfl

/-- The call without its tests. -/
theorem napqesGeneratePrimes_eq (hlt : minVal < maxVal) (hspan : maxVal - minVal + 1 ≠ 0)
    (rng : List Outcome) :
    napqesGeneratePrimes count minVal maxVal rng =
      .ok ((generateLoop count minVal (maxVal - minVal + 1)
        ((UInt64.ofNat (2 ^ 64 - 1) / (maxVal - minVal + 1)) * (maxVal - minVal + 1))
        (4 * (maxVal.toNat - minVal.toNat + 1) % 2 ^ 64) rng []).map fun out =>
          (if out.length = count then 0 else -1, out)) := by
  rw [napqesGeneratePrimes, if_neg (UInt64.not_le.mpr hlt)]
  dsimp only
  rw [if_neg hspan, toNat_maxAttempts hlt hspan]

/-- A failure is never taken for a prime when `min_val` is none. -/
theorem Drawn.Sound.outcome_isSome {rng : List Outcome} {d : Drawn} (h : d.Sound rng minVal span)
    (hmin : ¬ minVal.toNat.Prime) : ∃ b, d.outcome = some b := by
  cases hout : d.outcome with
  | some b => exact ⟨b, rfl⟩
  | none =>
      have hvalue : d.value = minVal := by
        rw [h.value_eq, hout, secureRandU64, UInt64.zero_mod, UInt64.add_zero]
      rw [← hvalue] at hmin
      exact absurd ((napqesIsPrime_iff _).mp h.prime) hmin

theorem keepsContract_of (hlt : minVal < maxVal) (hspan : maxVal - minVal + 1 ≠ 0)
    (h : ¬ minVal.toNat.Prime ∨ (primesIn minVal maxVal).card < count ∨
      4 * (maxVal.toNat - minVal.toNat + 1) % 2 ^ 64 < count) :
    KeepsContract count minVal maxVal := by
  intro rng
  refine ⟨_, napqesGeneratePrimes_eq hlt hspan rng, ?_⟩
  intro ret out hrun
  obtain ⟨out', hloop, hrun⟩ := Option.map_eq_some_iff.mp hrun
  obtain ⟨hret, rfl⟩ := Prod.mk.inj hrun
  have hempty : Filled rng count 0 minVal (maxVal - minVal + 1) [] :=
    ⟨by simp, by simp, Nat.le_refl _, Nat.zero_le _⟩
  have hfilled := filled_of_generateLoop hempty (fun o ho => ho) hloop
  split at hret
  case isFalse =>
    refine ⟨.inr hret.symm, fun hzero => ?_⟩
    rw [hzero] at hret
    cases hret
  case isTrue hfull =>
    refine ⟨.inl hret.symm, fun _ => ⟨hfull, hfilled.nodup, ?_⟩⟩
    have hcard := hfilled.length_le_card hlt hspan
    have hbound := hfilled.length_le
    have hmin : ¬ minVal.toNat.Prime := h.resolve_right (by omega)
    intro d hd
    have hsound := hfilled.sound d hd
    have hrange := hsound.mem_primesIn hlt hspan
    rw [primesIn, Finset.mem_filter, Finset.mem_Icc] at hrange
    obtain ⟨b, hb⟩ := hsound.outcome_isSome hmin
    exact ⟨hrange.2, hrange.1.1, hrange.1.2, b, hb ▸ hsound.outcome_mem, hb, hb ▸ hsound.value_eq⟩

/-- The outcome whose draw is `p`. -/
def outcomeOf (minVal : UInt64) (p : Nat) : Outcome :=
  some (.ofList 8 (beBytes 8 (p - minVal.toNat)))

theorem toNat_secureRandU64_outcomeOf {p : Nat} (hp : p < 2 ^ 64) :
    (secureRandU64 (outcomeOf minVal p)).toNat = p - minVal.toNat := by
  rw [outcomeOf, secureRandU64, u64FromBe8_eq,
    FixedBytes.toList_ofList (length_beBytes 8 _), List.take_of_length_le (by simp),
    beNat_beBytes_of_lt (by omega), UInt64.toNat_ofNat_of_lt' (show _ < 2 ^ 64 by omega)]

/-- The element of a prime. -/
def drawnOf (minVal : UInt64) (p : Nat) : Drawn := ⟨UInt64.ofNat p, outcomeOf minVal p⟩

/-- The element of a failed draw. -/
def failedDraw (minVal : UInt64) : Drawn := ⟨minVal, none⟩

theorem sound_drawnOf {rng : List Outcome} {p : Nat} (hlt : minVal < maxVal)
    (hspan : maxVal - minVal + 1 ≠ 0) (hp : p ∈ primesIn minVal maxVal)
    (hmem : outcomeOf minVal p ∈ rng) :
    (drawnOf minVal p).Sound rng minVal (maxVal - minVal + 1) := by
  rw [primesIn, Finset.mem_filter, Finset.mem_Icc] at hp
  obtain ⟨⟨hlow, hhigh⟩, hprime⟩ := hp
  have hmax := maxVal.toNat_lt
  have hvalue : (UInt64.ofNat p).toNat = p := UInt64.toNat_ofNat_of_lt' (show p < 2 ^ 64 by omega)
  refine ⟨(napqesIsPrime_iff _).mpr ?_, hmem, ?_⟩
  · rw [drawnOf, hvalue]
    exact hprime
  · apply UInt64.toNat_inj.mp
    rw [toNat_number hlt hspan, drawnOf, hvalue, toNat_secureRandU64_outcomeOf (by omega),
      Nat.mod_eq_of_lt (by omega)]
    omega

theorem sound_failedDraw {rng : List Outcome} (hmin : minVal.toNat.Prime) (hmem : none ∈ rng) :
    (failedDraw minVal).Sound rng minVal span where
  prime := (napqesIsPrime_iff _).mpr hmin
  outcome_mem := hmem
  value_eq := by rw [failedDraw, secureRandU64, UInt64.zero_mod, UInt64.add_zero]

theorem drawnOf_lt_limit {p : Nat} (hlt : minVal < maxVal) (hspan : maxVal - minVal + 1 ≠ 0)
    (hp : p ∈ primesIn minVal maxVal) :
    secureRandU64 (drawnOf minVal p).outcome <
      (UInt64.ofNat (2 ^ 64 - 1) / (maxVal - minVal + 1)) * (maxVal - minVal + 1) := by
  rw [primesIn, Finset.mem_filter, Finset.mem_Icc] at hp
  have hmax := maxVal.toNat_lt
  have hlimit := span_le_limit hspan
  rw [toNat_span hlt hspan] at hlimit
  apply UInt64.lt_iff_toNat_lt.mpr
  rw [drawnOf, toNat_secureRandU64_outcomeOf (by omega)]
  omega

theorem failedDraw_lt_limit (hspan : span ≠ 0) :
    secureRandU64 (failedDraw minVal).outcome < (UInt64.ofNat (2 ^ 64 - 1) / span) * span := by
  have hpos : 0 < span.toNat := Nat.pos_of_ne_zero fun h => hspan (UInt64.toNat_inj.mp h)
  exact UInt64.lt_iff_toNat_lt.mpr (Nat.lt_of_lt_of_le hpos (span_le_limit hspan))

/-- The first draw fails, and the others hit other primes. -/
def failingRun (minVal : UInt64) (ps : List Nat) : List Drawn :=
  failedDraw minVal :: ps.map (drawnOf minVal)

section
variable {ps : List Nat} (hps : ∀ p ∈ ps, p ∈ (primesIn minVal maxVal).erase minVal.toNat)
include hps

theorem sound_failingRun (hlt : minVal < maxVal) (hspan : maxVal - minVal + 1 ≠ 0)
    (hmin : minVal.toNat.Prime) :
    ∀ d ∈ failingRun minVal ps, d.Sound ((failingRun minVal ps).map Drawn.outcome) minVal
      (maxVal - minVal + 1) := by
  intro d hd
  have hout : d.outcome ∈ (failingRun minVal ps).map Drawn.outcome := List.mem_map_of_mem hd
  rcases List.mem_cons.mp hd with rfl | hd
  · exact sound_failedDraw hmin hout
  · obtain ⟨p, hp, rfl⟩ := List.mem_map.mp hd
    exact sound_drawnOf hlt hspan (Finset.mem_of_mem_erase (hps p hp)) hout

theorem failingRun_lt_limit (hlt : minVal < maxVal) (hspan : maxVal - minVal + 1 ≠ 0) :
    ∀ d ∈ failingRun minVal ps, secureRandU64 d.outcome <
      (UInt64.ofNat (2 ^ 64 - 1) / (maxVal - minVal + 1)) * (maxVal - minVal + 1) := by
  intro d hd
  rcases List.mem_cons.mp hd with rfl | hd
  · exact failedDraw_lt_limit hspan
  · obtain ⟨p, hp, rfl⟩ := List.mem_map.mp hd
    exact drawnOf_lt_limit hlt hspan (Finset.mem_of_mem_erase (hps p hp))

theorem nodup_failingRun (hnodup : ps.Nodup) :
    ((failingRun minVal ps).map Drawn.value).Nodup := by
  have hvalue : ∀ p ∈ ps, (UInt64.ofNat p).toNat = p := by
    intro p hp
    have hmem := Finset.mem_of_mem_erase (hps p hp)
    rw [primesIn, Finset.mem_filter, Finset.mem_Icc] at hmem
    have hmax := maxVal.toNat_lt
    exact UInt64.toNat_ofNat_of_lt' (show p < 2 ^ 64 by omega)
  rw [failingRun, List.map_cons, List.map_map, List.nodup_cons]
  constructor
  · intro hmem
    obtain ⟨p, hp, heq⟩ := List.mem_map.mp hmem
    have hmin : p = minVal.toNat := by
      rw [← hvalue p hp]
      exact congrArg UInt64.toNat heq
    exact Finset.ne_of_mem_erase (hps p hp) hmin
  · refine List.Nodup.map_on ?_ hnodup
    intro p hp q hq heq
    rw [← hvalue p hp, ← hvalue q hq]
    exact congrArg UInt64.toNat heq

end

theorem length_failingRun (minVal : UInt64) (ps : List Nat) :
    (failingRun minVal ps).length = ps.length + 1 := by
  rw [failingRun, List.length_cons, List.length_map]

/-- If a failure can be taken for a prime, one is. -/
theorem not_keepsContract_of (hcount : 1 ≤ count) (hlt : minVal < maxVal)
    (hspan : maxVal - minVal + 1 ≠ 0) (hmin : minVal.toNat.Prime)
    (hcard : count ≤ (primesIn minVal maxVal).card)
    (hattempts : count ≤ 4 * (maxVal.toNat - minVal.toNat + 1) % 2 ^ 64) :
    ¬ KeepsContract count minVal maxVal := by
  have hmem : minVal.toNat ∈ primesIn minVal maxVal := by
    rw [primesIn, Finset.mem_filter, Finset.mem_Icc]
    exact ⟨⟨Nat.le_refl _, Nat.le_of_lt hlt⟩, hmin⟩
  have hrest : count - 1 ≤ ((primesIn minVal maxVal).erase minVal.toNat).card := by
    rw [Finset.card_erase_of_mem hmem]
    omega
  obtain ⟨s, hs, hsize⟩ := Finset.exists_subset_card_eq hrest
  have hps : ∀ p ∈ s.toList, p ∈ (primesIn minVal maxVal).erase minVal.toNat :=
    fun p hp => hs (Finset.mem_toList.mp hp)
  have hlen : (failingRun minVal s.toList).length = count := by
    rw [length_failingRun, Finset.length_toList]
    omega
  have hnodup : (([] ++ failingRun minVal s.toList).map Drawn.value).Nodup :=
    nodup_failingRun hps s.nodup_toList
  have hloop := generateLoop_of_all_taken (sound_failingRun hps hlt hspan hmin)
    (failingRun_lt_limit hps hlt hspan) hnodup (hlen.trans_le hattempts)
    (by rw [hlen, List.length_nil, Nat.zero_add])
  intro hkeeps
  obtain ⟨run, hrun, hresult⟩ := hkeeps ((failingRun minVal s.toList).map Drawn.outcome)
  rw [napqesGeneratePrimes_eq hlt hspan, hloop] at hrun
  obtain ⟨-, hfull⟩ := hresult _ _ (Except.ok.inj hrun).symm
  obtain ⟨-, -, hall⟩ := hfull (if_pos (by rw [List.nil_append, hlen]))
  obtain ⟨-, -, -, b, -, hb, -⟩ := hall (failedDraw minVal) (List.mem_cons_self ..)
  cases hb

end Napqes.C
