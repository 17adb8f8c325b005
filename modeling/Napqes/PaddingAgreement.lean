import Napqes.Rust.Proofs.Padding
import Napqes.Rust.Proofs.Total
import Napqes.Python.Proofs.Block
import Napqes.C.Proofs.Block

/-!
# One map from message length to block size

What `PadProfile::block_size` promises for every length and parameter, and that
`_padding_bucket` and `padding_block_size` are the same map on the lengths a message can have.
-/

namespace Napqes

/-- What the Rust map does for a profile and a message length. -/
structure BlockSizeSpec (profile : Rust.PadProfile) (n : Nat) : Prop where
  returns : Rust.Returns (profile.blockSizeChecked n)
  accepts : (∃ b, profile.blockSizeChecked n = .ok b) ↔ profile.Admits n
  reachable : ∀ b, profile.blockSizeChecked n = .ok b → Rust.ReachableBlock b ∧ n < b
  least : ∀ b, profile.blockSizeChecked n = .ok b →
    IsLeast {b' | b' ∈ profile.ladder ∧ n < b'} b
  mono : ∀ m b b', n ≤ m → profile.blockSizeChecked n = .ok b →
    profile.blockSizeChecked m = .ok b' → b ≤ b'
  bucket_le : ∀ b, profile.blockSizeChecked n = .ok b →
    ∃ b₀, Rust.PadProfile.bucket.blockSizeChecked n = .ok b₀ ∧ b₀ ≤ b

theorem blockSizeSpec (profile : Rust.PadProfile) (n : Nat) : BlockSizeSpec profile n where
  returns := by
    rw [Rust.blockSizeChecked_eq]
    exact Rust.returns_blockSize profile n
  accepts := by
    rw [Rust.blockSizeChecked_eq]
    exact Rust.exists_blockSize_iff
  reachable := by
    intro b hb
    rw [Rust.blockSizeChecked_eq] at hb
    obtain ⟨hreach, hlt, -⟩ := Rust.blockSize_spec hb
    exact ⟨hreach, hlt⟩
  least := by
    intro b hb
    rw [Rust.blockSizeChecked_eq] at hb
    exact (Rust.blockSize_eq_ok_iff.mp hb).2
  mono := by
    intro m b b' hnm hb hb'
    rw [Rust.blockSizeChecked_eq] at hb hb'
    exact Rust.blockSize_mono hnm hb hb'
  bucket_le := by
    intro b hb
    rw [Rust.blockSizeChecked_eq] at hb ⊢
    exact Rust.bucket_le_blockSize hb

/-- The other ports on the lengths up to 65535: the same parameters are accepted, with the same
value. The C function reports failure by 0. -/
structure SameBlockSize (n : Nat) : Prop where
  python : ∀ profile b, Python.paddingBucket n (.ofRust profile) = .ok b ↔
    profile.blockSizeChecked n = .ok b
  python_params : ∀ profile b, Python.paddingBucket n profile = .ok b →
    ∃ p : Rust.PadProfile, profile = .ofRust p
  c : ∀ profile b, (C.paddingBlockSize n profile = b ∧ b ≠ 0) ↔
    (C.PadProfile.toRust profile).blockSizeChecked n = .ok b

theorem sameBlockSize {n : Nat} (hn : n ≤ 65535) : SameBlockSize n where
  python := by
    intro profile b
    rw [Rust.blockSizeChecked_eq]
    exact Python.paddingBucket_eq_ok_iff profile hn b
  python_params := by
    intro profile b hb
    exact Python.exists_ofRust_of_paddingBucket hb
  c := by
    intro profile b
    rw [Rust.blockSizeChecked_eq, C.paddingBlockSize_eq (by omega) profile]
    cases hblock : (C.PadProfile.toRust profile).blockSize n with
    | ok b' =>
        have hlt := (Rust.blockSize_spec hblock).2.1
        simp only [Except.toOption, Option.getD_some, Except.ok.injEq]
        constructor
        · intro h
          exact h.1
        · rintro rfl
          exact ⟨rfl, by omega⟩
    | error e =>
        simp only [Except.toOption, Option.getD_none, reduceCtorEq, iff_false, not_and, not_not]
        exact Eq.symm

/-- The padding map: for every length and profile in Rust, and the same in the three ports for
every length a message can have. -/
theorem padding_profiles :
    (∀ profile n, BlockSizeSpec profile n) ∧ (∀ n, n ≤ 65535 → SameBlockSize n) := by
  constructor
  · intro profile n
    exact blockSizeSpec profile n
  · intro n hn
    exact sameBlockSize hn

/-- The largest length a message can have. -/
theorem padding_profiles_max : 65535 ≤ 65535 ∧ SameBlockSize 65535 :=
  ⟨Nat.le_refl _, padding_profiles.2 65535 (Nat.le_refl _)⟩

end Napqes
