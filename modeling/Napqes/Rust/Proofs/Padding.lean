import Napqes.Rust.Padding
import Mathlib.Order.Bounds.Basic

/-!
# Block sizes as the least step of a ladder (`rust/src/lib.rs:635-702`)

A profile has a ladder of block sizes, and `block_size` picks the least one above the message
length. The code computes it by shifts on bit lengths and a ceiling division; here that is shown
to be the least element, from which the order properties of the map follow. The arithmetic is
done once more in checked `u32` and `usize` words, none of which is left.
-/

namespace Napqes.Rust

variable {profile : PadProfile} {n m b : Nat}

/-! ## The ladder of a profile -/

/-- The block sizes of a profile: `2^4, ..., 2^16`, every `g`-th of them, or the one frame. -/
def PadProfile.ladder : PadProfile → Set Nat
  | .bucket => {b | ReachableBlock b}
  | .coarse g => {b | ∃ k, padMinExp + g.toNat * k ≤ padMaxExp ∧ b = 2 ^ (padMinExp + g.toNat * k)}
  | .frame f => {f.toNat}

/-- The parameters and lengths for which a profile has a block size. -/
def PadProfile.Admits (profile : PadProfile) (n : Nat) : Prop :=
  n < 2 ^ padMaxExp ∧
    match profile with
    | .bucket => True
    | .coarse g => 1 ≤ g.toNat ∧ g.toNat ∣ padMaxExp - padMinExp
    | .frame f => ReachableBlock f.toNat ∧ n < f.toNat

/-- The exponent the code starts from is the least one, from 4 on, whose power exceeds `n`. -/
theorem exponent_le_iff {x : Nat} (hx : padMinExp ≤ x) :
    max (bitLength n) padMinExp ≤ x ↔ n < 2 ^ x := by
  constructor
  · intro h
    calc n < 2 ^ bitLength n := lt_two_pow_bitLength n
      _ ≤ 2 ^ x := Nat.pow_le_pow_right (by decide) ((Nat.le_max_left _ _).trans h)
  · intro h
    exact Nat.max_le.mpr ⟨bitLength_le h, hx⟩

theorem lt_two_pow_exponent (n : Nat) : n < 2 ^ max (bitLength n) padMinExp :=
  (exponent_le_iff (Nat.le_max_right _ _)).mp (Nat.le_refl _)

theorem exponent_le_padMaxExp (hn : n < 2 ^ padMaxExp) : max (bitLength n) padMinExp ≤ padMaxExp :=
  (exponent_le_iff (by decide)).mpr hn

/-- The ceiling of `d / g` is the least `k` with `d ≤ g * k`. -/
theorem ceilDiv_le_iff {d g k : Nat} (hg : 0 < g) : (d + g - 1) / g ≤ k ↔ d ≤ g * k := by
  rw [← Nat.lt_succ_iff, Nat.div_lt_iff_lt_mul hg, Nat.succ_mul, Nat.mul_comm k g]
  omega

theorem shiftLeft_one (e : Nat) : 1 <<< e = 2 ^ e := by rw [Nat.shiftLeft_eq, Nat.one_mul]

theorem isLeast_bucket (hn : n < 2 ^ padMaxExp) :
    IsLeast {b | b ∈ PadProfile.bucket.ladder ∧ n < b} (2 ^ max (bitLength n) padMinExp) := by
  constructor
  · exact ⟨⟨_, Nat.le_max_right _ _, exponent_le_padMaxExp hn, rfl⟩, lt_two_pow_exponent n⟩
  · rintro b ⟨⟨e, hlo, -, rfl⟩, hlt⟩
    exact Nat.pow_le_pow_right (by decide) ((exponent_le_iff hlo).mpr hlt)

theorem isLeast_coarse {g : UInt32} (hn : n < 2 ^ padMaxExp) (hg : 0 < g.toNat)
    (hdvd : g.toNat ∣ padMaxExp - padMinExp) :
    IsLeast {b | b ∈ (PadProfile.coarse g).ladder ∧ n < b}
      (2 ^ (padMinExp + g.toNat *
        ((max (bitLength n) padMinExp - padMinExp + g.toNat - 1) / g.toNat))) := by
  obtain ⟨q, hq⟩ := hdvd
  have htop := exponent_le_padMaxExp hn
  have hlow : padMinExp ≤ max (bitLength n) padMinExp := Nat.le_max_right _ _
  -- the step of the ladder, bounded by the number of steps and reaching the exponent
  have hstep : (max (bitLength n) padMinExp - padMinExp + g.toNat - 1) / g.toNat ≤ q := by
    rw [ceilDiv_le_iff hg, ← hq]
    exact Nat.sub_le_sub_right htop padMinExp
  have hreach := (ceilDiv_le_iff hg).mp (Nat.le_refl
    ((max (bitLength n) padMinExp - padMinExp + g.toNat - 1) / g.toNat))
  constructor
  · refine ⟨⟨_, ?_, rfl⟩, ?_⟩
    · have hmul := Nat.mul_le_mul_left g.toNat hstep
      simp only [padMaxExp, padMinExp] at hq hmul ⊢
      omega
    · apply (exponent_le_iff (Nat.le_add_right _ _)).mp
      omega
  · rintro b ⟨⟨k, -, rfl⟩, hlt⟩
    have hk : max (bitLength n) padMinExp ≤ padMinExp + g.toNat * k :=
      (exponent_le_iff (Nat.le_add_right _ _)).mpr hlt
    apply Nat.pow_le_pow_right (by decide)
    apply Nat.add_le_add_left
    apply Nat.mul_le_mul_left
    rw [ceilDiv_le_iff hg]
    omega

/-- `block_size` gives the least step of the ladder above the message length, wherever the profile
has one. -/
theorem blockSize_eq_ok_iff :
    profile.blockSize n = .ok b ↔
      profile.Admits n ∧ IsLeast {b | b ∈ profile.ladder ∧ n < b} b := by
  by_cases hn : n < 2 ^ padMaxExp
  · have hguard : ¬ n ≥ 1 <<< padMaxExp := by
      rw [shiftLeft_one]
      omega
    cases profile with
    | bucket =>
        rw [PadProfile.blockSize, if_neg hguard]
        simp only [bucketBlockSize, shiftLeft_one, Except.ok.injEq]
        constructor
        · rintro rfl
          exact ⟨⟨hn, trivial⟩, isLeast_bucket hn⟩
        · rintro ⟨-, hleast⟩
          exact (isLeast_bucket hn).unique hleast
    | coarse g =>
        rw [PadProfile.blockSize, if_neg hguard]
        simp only [shiftLeft_one]
        by_cases hg : g.toNat = 0 ∨ (padMaxExp - padMinExp) % g.toNat ≠ 0
        · rw [if_pos hg]
          simp only [err, reduceCtorEq, false_iff]
          rintro ⟨⟨-, hpos, hdvd⟩, -⟩
          rcases hg with hg | hg
          · omega
          · exact hg (Nat.mod_eq_zero_of_dvd hdvd)
        · rw [if_neg hg]
          rw [not_or, not_not] at hg
          have hpos : 0 < g.toNat := Nat.pos_of_ne_zero hg.1
          have hdvd := Nat.dvd_of_mod_eq_zero hg.2
          rw [Except.ok.injEq]
          constructor
          · rintro rfl
            exact ⟨⟨hn, hpos, hdvd⟩, isLeast_coarse hn hpos hdvd⟩
          · rintro ⟨-, hleast⟩
            exact (isLeast_coarse hn hpos hdvd).unique hleast
    | frame f =>
        rw [blockSize_frame_eq_ok_iff]
        constructor
        · rintro ⟨-, hreach, hlt, rfl⟩
          exact ⟨⟨hn, hreach, hlt⟩, ⟨rfl, hlt⟩, fun b hb => Nat.le_of_eq hb.1.symm⟩
        · rintro ⟨⟨-, hreach, hlt⟩, hleast⟩
          exact ⟨hn, hreach, hlt, hleast.1.1⟩
  · constructor
    · intro h
      exact absurd (blockSize_spec h).2.2 hn
    · rintro ⟨hadmits, -⟩
      exact absurd hadmits.1 hn

/-- A profile that admits the length has a block size for it. -/
theorem exists_blockSize_iff : (∃ b, profile.blockSize n = .ok b) ↔ profile.Admits n := by
  constructor
  · rintro ⟨b, hb⟩
    exact (blockSize_eq_ok_iff.mp hb).1
  · intro h
    cases profile with
    | bucket => exact ⟨_, blockSize_eq_ok_iff.mpr ⟨h, isLeast_bucket h.1⟩⟩
    | coarse g => exact ⟨_, blockSize_eq_ok_iff.mpr ⟨h, isLeast_coarse h.1 h.2.1 h.2.2⟩⟩
    | frame f => exact ⟨_, (blockSize_frame_eq_ok_iff f n _).mpr ⟨h.1, h.2.1, h.2.2, rfl⟩⟩

/-! ## Order -/

/-- The ladder of a profile that admits a length is part of the bucket ladder. -/
theorem ladder_subset (h : profile.Admits n) : profile.ladder ⊆ PadProfile.bucket.ladder := by
  intro b hb
  cases profile with
  | bucket => exact hb
  | coarse g =>
      obtain ⟨k, hk, rfl⟩ := hb
      exact ⟨_, Nat.le_add_right _ _, hk, rfl⟩
  | frame f =>
      have hf : b = f.toNat := hb
      rw [hf]
      exact h.2.1

theorem blockSize_mono {b' : Nat} (hnm : n ≤ m) (hb : profile.blockSize n = .ok b)
    (hb' : profile.blockSize m = .ok b') : b ≤ b' := by
  obtain ⟨hmem, hlt⟩ := (blockSize_eq_ok_iff.mp hb').2.1
  exact (blockSize_eq_ok_iff.mp hb).2.2 ⟨hmem, Nat.lt_of_le_of_lt hnm hlt⟩

/-- No profile pads less than the bucket profile. -/
theorem bucket_le_blockSize (hb : profile.blockSize n = .ok b) :
    ∃ b₀, PadProfile.bucket.blockSize n = .ok b₀ ∧ b₀ ≤ b := by
  obtain ⟨hadmits, hleast⟩ := blockSize_eq_ok_iff.mp hb
  have hbucket := isLeast_bucket hadmits.1
  refine ⟨_, blockSize_eq_ok_iff.mpr ⟨⟨hadmits.1, trivial⟩, hbucket⟩, ?_⟩
  exact hbucket.2 ⟨ladder_subset hadmits hleast.1.1, hleast.1.2⟩

/-! ## Checked arithmetic -/

/-- `PadProfile::block_size` (`lib.rs:647-701`) in checked words; `u32` is an addition on `u32`.
The two parts of `g == 0 || span % g != 0` are evaluated in order. -/
def PadProfile.blockSizeChecked (profile : PadProfile) (n : Nat) : RustM String Nat := do
  let most ← checkedShl padMaxExp
  if n ≥ most then
    err (s!"message of {n} codepoints exceeds the maximum bucket 2^{padMaxExp} (CVF-31); " ++
      "pad_profile.block_size cannot produce a value in the normative reachable set.")
  else
    let e := max (bitLength n) padMinExp
    match profile with
    | .bucket => checkedShl (max (bitLength n) padMinExp)
    | .coarse g =>
        let g := g.toNat
        let span ← checkedSub padMaxExp padMinExp
        if g = 0 then err s!"coarse stride g={g} must divide {span}."
        else
          let rest ← checkedRem span g
          if rest ≠ 0 then err s!"coarse stride g={g} must divide {span}."
          else
            let above ← checkedSub e padMinExp
            let sum ← u32 (above + g)
            let sum ← checkedSub sum 1
            let steps ← checkedDiv sum g
            let climb ← checkedMul g steps
            let exp ← u32 (padMinExp + climb)
            checkedShl exp
    | .frame f =>
        let f := f.toNat
        if ¬ f.isPowerOfTwo ∨ trailingZeros 32 f < padMinExp ∨ trailingZeros 32 f > padMaxExp then
          let lo ← checkedShl padMinExp
          let hi ← checkedShl padMaxExp
          err s!"frame size F={f} must be a power of two in [{lo}, {hi}]."
        else if n ≥ f then
          let most ← checkedSub f 1
          err (s!"frame({f}) profile admits messages of at most {most} codepoints; " ++
            s!"got {n}. Use a larger frame.")
        else .ok f

/-- The exponent computed for a stride that divides 12 stays within its words. -/
theorem coarse_exponent_le {g : UInt32} (hn : n < 2 ^ padMaxExp) (hg : 0 < g.toNat)
    (hdvd : g.toNat ∣ padMaxExp - padMinExp) :
    padMinExp + g.toNat * ((max (bitLength n) padMinExp - padMinExp + g.toNat - 1) / g.toNat) ≤
      padMaxExp := by
  obtain ⟨⟨⟨k, hk, heq⟩, -⟩, -⟩ := isLeast_coarse hn hg hdvd
  rw [Nat.pow_right_injective (Nat.le_refl 2) heq]
  exact hk

/-- The checked computation is the one on natural numbers: no operation leaves its word. -/
theorem blockSizeChecked_eq : profile.blockSizeChecked n = profile.blockSize n := by
  rw [PadProfile.blockSizeChecked, PadProfile.blockSize, checkedShl_of_lt (by decide), ok_bind]
  by_cases hguard : n ≥ 1 <<< padMaxExp
  · rw [if_pos hguard, if_pos hguard]
  · rw [if_neg hguard, if_neg hguard]
    have hn : n < 2 ^ padMaxExp := by
      rw [shiftLeft_one] at hguard
      omega
    have htop := exponent_le_padMaxExp hn
    have hmin : padMinExp = 4 := rfl
    have hmax : padMaxExp = 16 := rfl
    cases profile with
    | bucket => exact checkedShl_of_lt (by omega)
    | coarse g =>
        simp only [checkedSub_of_le (show padMinExp ≤ padMaxExp by decide), ok_bind]
        by_cases hzero : g.toNat = 0
        · rw [if_pos hzero, if_pos (Or.inl hzero)]
        · have hrem : (checkedRem (padMaxExp - padMinExp) g.toNat : RustM String Nat) =
              .ok ((padMaxExp - padMinExp) % g.toNat) := if_neg hzero
          rw [if_neg hzero, hrem, ok_bind]
          by_cases hover : (padMaxExp - padMinExp) % g.toNat ≠ 0
          · rw [if_pos hover, if_pos (Or.inr hover)]
          · have hpos : 0 < g.toNat := Nat.pos_of_ne_zero hzero
            have hdvd := Nat.dvd_of_mod_eq_zero (not_not.mp hover)
            have hgle : g.toNat ≤ 12 := Nat.le_of_dvd (by decide) hdvd
            have hexp := coarse_exponent_le hn hpos hdvd
            have hdiv : ∀ a, (checkedDiv a g.toNat : RustM String Nat) = .ok (a / g.toNat) :=
              fun a => if_neg hzero
            have hmul : ∀ a, padMinExp + g.toNat * a ≤ padMaxExp →
                (checkedMul g.toNat a : RustM String Nat) = .ok (g.toNat * a) :=
              fun a ha => if_pos (by omega)
            rw [if_neg hover, if_neg (by simp [hzero, not_not.mp hover]),
              checkedSub_of_le (Nat.le_max_right _ _), ok_bind, u32_of_lt (by omega), ok_bind,
              checkedSub_of_le (by omega), ok_bind, hdiv, ok_bind, hmul _ hexp, ok_bind,
              u32_of_lt (by omega), ok_bind]
            exact checkedShl_of_lt (by omega)
    | frame f =>
        simp only [checkedShl_of_lt (show padMinExp < 64 by decide), ok_bind]
        split
        case isTrue => rfl
        case isFalse hpow =>
          split
          case isTrue =>
            have hpos : 1 ≤ f.toNat := by
              rw [not_or, not_not] at hpow
              exact Nat.pos_of_isPowerOfTwo hpow.1
            rw [checkedSub_of_le hpos, ok_bind]
          case isFalse => rfl

end Napqes.Rust
