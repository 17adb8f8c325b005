import Napqes.C.Proofs.BlockV7

/-!
# What `compute_auth_tag` hashes

The length of the associated data is written in four bytes for v7 and in eight for v8. Eight bytes
hold every `size_t`; four drop the high half of it, so a multiple of `2^32` bytes can move between
the associated data and the blob and leave the hashed string as it is. No caller looks at the
length of its associated data.
-/

namespace Napqes.C

/-- The bytes that `compute_auth_tag` hashes under its key. -/
def authTagInput (aad payload : List UInt8) (aadLenWidth : Nat) : List UInt8 :=
  0x03 :: (payload.take nonceSize ++
    (beLenPrefix aad.length aadLenWidth ++ (aad ++ payload.drop nonceSize)))

theorem computeAuthTag_eq (H : Hmac) (kb aad payload : List UInt8) (width : Nat) :
    computeAuthTag H kb aad payload width = H kb (authTagInput aad payload width) := rfl

/-- The arguments of a call that change between calls under one key; both lengths are `size_t`. -/
structure TagCall where
  nonce : FixedBytes nonceSize
  aad : List UInt8
  maskedBlob : List UInt8
  aad_length_lt : aad.length < 2 ^ 64
  payload_length_lt : nonceSize + maskedBlob.length < 2 ^ 64

namespace TagCall

def payload (x : TagCall) : List UInt8 := x.nonce.toList ++ x.maskedBlob

/-- The hashed string. -/
def hashed (x : TagCall) (width : Nat) : List UInt8 := authTagInput x.aad x.payload width

theorem hashed_eq (x : TagCall) (width : Nat) :
    x.hashed width =
      0x03 :: (x.nonce.toList ++ (beBytes width x.aad.length ++ (x.aad ++ x.maskedBlob))) := by
  rw [hashed, authTagInput, payload, List.take_left' x.nonce.length_toList,
    List.drop_left' x.nonce.length_toList, beLenPrefix_eq]

theorem ext {x y : TagCall} (hnonce : x.nonce = y.nonce) (haad : x.aad = y.aad)
    (hblob : x.maskedBlob = y.maskedBlob) : x = y := by
  cases x
  cases y
  simp only [mk.injEq]
  exact ⟨hnonce, haad, hblob⟩

/-- Equal strings have equal nonces, lengths that agree in the bytes written, and the same bytes
behind them. -/
theorem hashed_eq_iff (x y : TagCall) (width : Nat) :
    x.hashed width = y.hashed width ↔
      x.nonce = y.nonce ∧ beBytes width x.aad.length = beBytes width y.aad.length ∧
        x.aad ++ x.maskedBlob = y.aad ++ y.maskedBlob := by
  rw [hashed_eq, hashed_eq]
  constructor
  · intro h
    obtain ⟨hnonce, hrest⟩ :=
      append_inj_of_length x.nonce.length_toList y.nonce.length_toList (List.cons.inj h).2
    obtain ⟨hlen, hbytes⟩ := append_inj_of_length (length_beBytes _ _) (length_beBytes _ _) hrest
    exact ⟨FixedBytes.ext hnonce, hlen, hbytes⟩
  · rintro ⟨hnonce, hlen, hbytes⟩
    rw [hnonce, hlen, hbytes]

/-- Where the lengths of the associated data agree, so do the calls. -/
theorem eq_of_length_eq {x y : TagCall} {width : Nat} (h : x.hashed width = y.hashed width)
    (hlen : x.aad.length = y.aad.length) : x = y := by
  obtain ⟨hnonce, -, hbytes⟩ := (hashed_eq_iff x y width).mp h
  obtain ⟨haad, hblob⟩ := List.append_inj hbytes hlen
  exact ext hnonce haad hblob

end TagCall

namespace TagCall

/-- `2^32` bytes can move from the associated data to the blob. -/
def AadSpare (x : TagCall) : Prop :=
  2 ^ 32 ≤ x.aad.length ∧ nonceSize + x.maskedBlob.length + 2 ^ 32 < 2 ^ 64

/-- `2^32` bytes can move from the blob to the associated data. -/
def BlobSpare (x : TagCall) : Prop :=
  2 ^ 32 ≤ x.maskedBlob.length ∧ x.aad.length + 2 ^ 32 < 2 ^ 64

theorem eq_of_hashed_v8 {x y : TagCall} (h : x.hashed aadLenWidthV8 = y.hashed aadLenWidthV8) :
    x = y := by
  obtain ⟨-, hlen, -⟩ := (hashed_eq_iff x y aadLenWidthV8).mp h
  exact eq_of_length_eq h (beBytes_inj (w := 8) x.aad_length_lt y.aad_length_lt hlen)

theorem eq_of_hashed_v7 {x y : TagCall} (haad : ¬ x.AadSpare) (hblob : ¬ x.BlobSpare)
    (h : x.hashed aadLenWidthV7 = y.hashed aadLenWidthV7) : x = y := by
  obtain ⟨-, hlen, hbytes⟩ := (hashed_eq_iff x y aadLenWidthV7).mp h
  have hmod : x.aad.length % 2 ^ 32 = y.aad.length % 2 ^ 32 := beBytes_eq_iff.mp hlen
  have htotal := congrArg List.length hbytes
  rw [List.length_append, List.length_append] at htotal
  rw [AadSpare] at haad
  rw [BlobSpare] at hblob
  have hx := x.aad_length_lt
  have hy := y.aad_length_lt
  have hpayload := y.payload_length_lt
  exact eq_of_length_eq h (by omega)

/-- The call that has `n` bytes of associated data of the same bytes. -/
def cutAt (x : TagCall) (n : Nat) (hn : n < 2 ^ 64)
    (hrest : nonceSize + (x.aad.length + x.maskedBlob.length - n) < 2 ^ 64) : TagCall where
  nonce := x.nonce
  aad := (x.aad ++ x.maskedBlob).take n
  maskedBlob := (x.aad ++ x.maskedBlob).drop n
  aad_length_lt := by
    rw [List.length_take]
    omega
  payload_length_lt := by
    rw [List.length_drop, List.length_append]
    exact hrest

theorem hashed_cutAt {x : TagCall} {n : Nat} (hn : n < 2 ^ 64)
    (hrest : nonceSize + (x.aad.length + x.maskedBlob.length - n) < 2 ^ 64)
    (hle : n ≤ x.aad.length + x.maskedBlob.length) (hmod : x.aad.length % 2 ^ 32 = n % 2 ^ 32) :
    x.hashed aadLenWidthV7 = (x.cutAt n hn hrest).hashed aadLenWidthV7 := by
  rw [hashed_eq_iff]
  refine ⟨rfl, ?_, (List.take_append_drop n _).symm⟩
  have hlen : (x.cutAt n hn hrest).aad.length = n := by
    rw [cutAt, List.length_take, List.length_append, Nat.min_eq_left hle]
  rw [hlen]
  exact beBytes_eq_iff.mpr hmod

theorem exists_hashed_of_spare {x : TagCall} (h : x.AadSpare ∨ x.BlobSpare) :
    ∃ y, x.hashed aadLenWidthV7 = y.hashed aadLenWidthV7 ∧ x ≠ y := by
  have hx := x.aad_length_lt
  have hpayload := x.payload_length_lt
  have hne : ∀ {n : Nat} (hn : n < 2 ^ 64)
      (hrest : nonceSize + (x.aad.length + x.maskedBlob.length - n) < 2 ^ 64),
      n ≤ x.aad.length + x.maskedBlob.length → n ≠ x.aad.length → x ≠ x.cutAt n hn hrest := by
    intro n hn hrest hle hne heq
    have hlen := congrArg (fun y => y.aad.length) heq
    simp only [cutAt, List.length_take, List.length_append] at hlen
    omega
  rcases h with ⟨hlong, hroom⟩ | ⟨hlong, hroom⟩
  · exact ⟨x.cutAt (x.aad.length - 2 ^ 32) (by omega) (by omega),
      hashed_cutAt (by omega) (by omega) (by omega) (by omega), hne _ _ (by omega) (by omega)⟩
  · exact ⟨x.cutAt (x.aad.length + 2 ^ 32) hroom (by omega),
      hashed_cutAt hroom (by omega) (by omega) (by omega), hne _ _ (by omega) (by omega)⟩

end TagCall

/-! ## The callers -/

theorem exists_napqesEncryptBytes_of {H : Hmac} {noise : Rust.Noise} {message : List UInt8}
    {key : List UInt64} {nonce : FixedBytes nonceSize} {aad ct : List UInt8}
    (h : napqesEncryptBytes H noise message key aad nonce = .ok ct) (aad' : List UInt8) :
    ∃ ct', napqesEncryptBytes H noise message key aad' nonce = .ok ct' := by
  rw [napqesEncryptBytes] at h ⊢
  obtain ⟨n, hn, h⟩ := bind_eq_ok.mp h
  rw [hn, ok_bind]
  split at h
  case isTrue hzero => exact ⟨[], if_pos hzero⟩
  case isFalse hzero =>
    rw [if_neg hzero]
    split at h
    case isTrue => cases h
    case isFalse hlong =>
      rw [if_neg hlong]
      dsimp only at h ⊢
      obtain ⟨blob, hblob, h⟩ := bind_eq_ok.mp h
      obtain ⟨ks, hks, -⟩ := bind_eq_ok.mp h
      rw [hblob, ok_bind, hks, ok_bind]
      exact ⟨_, rfl⟩

/-- A string that `compute_auth_tag` hashes belongs to one call only, for v8 always and for v7
exactly when neither the associated data nor the blob has `2^32` bytes to spare; and the encryptor
takes associated data of every length that it takes of any. -/
theorem auth_tag_input_unique_iff (x : TagCall) {width : Nat}
    (hwidth : width = aadLenWidthV7 ∨ width = aadLenWidthV8) :
    (∀ (H : Hmac) (kb : List UInt8),
      computeAuthTag H kb x.aad x.payload width = H kb (x.hashed width)) ∧
    ((∀ y, x.hashed width = y.hashed width → x = y) ↔
      width = aadLenWidthV8 ∨ ¬ x.AadSpare ∧ ¬ x.BlobSpare) ∧
    (∀ (H : Hmac) (noise : Rust.Noise) (message : List UInt8) (key : List UInt64)
      (aad aad' : List UInt8),
      (∃ ct, napqesEncryptBytes H noise message key aad x.nonce = .ok ct) ↔
        ∃ ct, napqesEncryptBytes H noise message key aad' x.nonce = .ok ct) := by
  refine ⟨fun H kb => computeAuthTag_eq H kb x.aad x.payload width, ?_, ?_⟩
  · constructor
    · intro hunique
      rcases hwidth with rfl | rfl
      · refine .inr (not_or.mp fun hspare => ?_)
        obtain ⟨y, heq, hne⟩ := TagCall.exists_hashed_of_spare hspare
        exact hne (hunique y heq)
      · exact .inl rfl
    · intro h y heq
      rcases hwidth with rfl | rfl
      · obtain ⟨haad, hblob⟩ := h.resolve_left (by decide)
        exact TagCall.eq_of_hashed_v7 haad hblob heq
      · exact TagCall.eq_of_hashed_v8 heq
  · intro H noise message key aad aad'
    constructor
    · rintro ⟨ct, hct⟩
      exact exists_napqesEncryptBytes_of hct aad'
    · rintro ⟨ct, hct⟩
      exact exists_napqesEncryptBytes_of hct aad

/-- A call with short associated data and a short blob. -/
def shortCall : TagCall where
  nonce := .ofList 16 []
  aad := [1]
  maskedBlob := [2, 3]
  aad_length_lt := by decide
  payload_length_lt := by decide

theorem auth_tag_input_unique_short :
    (¬ shortCall.AadSpare ∧ ¬ shortCall.BlobSpare) ∧
      ∀ y, shortCall.hashed aadLenWidthV7 = y.hashed aadLenWidthV7 → shortCall = y := by
  have hspare : ¬ shortCall.AadSpare ∧ ¬ shortCall.BlobSpare :=
    ⟨fun h => absurd h.1 (by decide), fun h => absurd h.1 (by decide)⟩
  exact ⟨hspare, (auth_tag_input_unique_iff shortCall (.inl rfl)).2.1.mpr (.inr hspare)⟩

/-- `2^32` bytes of associated data and no blob hash like no associated data and a blob of these
bytes, and the encryptor takes them. -/
theorem auth_tag_input_not_unique :
    ∃ x y : TagCall, x.aad.length = 2 ^ 32 ∧ x.maskedBlob = [] ∧ y.aad = [] ∧
      y.maskedBlob = x.aad ∧ x.hashed aadLenWidthV7 = y.hashed aadLenWidthV7 ∧ x ≠ y ∧
      ∃ ct, napqesEncryptBytes zeroHmac (fun _ _ _ => false) [65, 0] [1000003] x.aad x.nonce =
        .ok ct := by
  obtain ⟨zeros, hzeros⟩ : ∃ zeros : List UInt8, zeros.length = 2 ^ 32 :=
    ⟨List.replicate (2 ^ 32) 0, List.length_replicate⟩
  let x : TagCall := ⟨.ofList 16 [], zeros, [], by omega, by decide⟩
  let y : TagCall := ⟨.ofList 16 [], [], zeros, by decide, by rw [hzeros]; decide⟩
  have hhashed : x.hashed aadLenWidthV7 = y.hashed aadLenWidthV7 := by
    rw [TagCall.hashed_eq_iff]
    refine ⟨rfl, beBytes_eq_iff.mpr ?_, ?_⟩
    · show zeros.length % 256 ^ 4 = 0 % 256 ^ 4
      rw [hzeros]
      decide
    · exact List.append_nil zeros
  have hne : x ≠ y := by
    intro heq
    have hlen : zeros.length = 0 := congrArg (fun z => z.aad.length) heq
    omega
  obtain ⟨ct, hct, -⟩ := @exists_roundTrip_of_invertible zeroHmac _ _ _ [] _ (by decide)
    (fun _ => ⟨0, rfl⟩) (by decide) (by decide) (by simp) invertibleV7_one_byte
  exact ⟨x, y, hzeros, rfl, rfl, rfl, hhashed, hne, exists_napqesEncryptBytes_of hct zeros⟩

end Napqes.C
