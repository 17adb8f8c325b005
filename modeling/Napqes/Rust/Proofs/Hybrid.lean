import Napqes.Rust.Hybrid
import Napqes.Rust.Proofs.Kem

/-!
# Agreement of the hybrid exchange

The holder of the secret key cuts out of it and of the ciphertext the same public values that the
sender had, in the same order, so both feed HKDF the same secrets and the same transcript. Whatever
the blobs are, the key of a side comes out of HKDF over both secrets of that side and the transcript
of the four public values it saw.
-/

namespace Napqes.Rust

variable {ε : Type} {H : Hmac} {hkdf : Hkdf} {frodo : Frodo} {x25519 : X25519}

/-! ## The two components -/

/-- The byte encodings of the KEM have their declared sizes, and what was encoded is accepted. -/
structure Frodo.Encodes (frodo : Frodo) : Prop where
  length_publicKey : ∀ seed, (frodo.keypair seed).1.length = frodoPublicKeySize
  length_secretKey : ∀ seed, (frodo.keypair seed).2.length = frodoSecretKeySize
  length_ciphertext : ∀ seed coins,
    (frodo.encapsulate (frodo.keypair seed).1 coins).2.length = frodoCiphertextSize
  publicKeyFromBytes : ∀ seed, frodo.publicKeyFromBytes (frodo.keypair seed).1 = true
  secretKeyFromBytes : ∀ seed, frodo.secretKeyFromBytes (frodo.keypair seed).2 = true
  ciphertextFromBytes : ∀ seed coins,
    frodo.ciphertextFromBytes (frodo.encapsulate (frodo.keypair seed).1 coins).2 = true

/-- What the exchange needs of X25519. -/
structure X25519.Commutes (x25519 : X25519) : Prop where
  ofBytes_toBytes : ∀ s, x25519.ofBytes (x25519.toBytes s) = s
  diffieHellman_comm : ∀ a b,
    x25519.diffieHellman a (x25519.publicKey b) = x25519.diffieHellman b (x25519.publicKey a)

/-! ## Cutting the blobs -/

theorem copyFromSlice_toList {n : Nat} (a : FixedBytes n) :
    (copyFromSlice n a.toList : RustM ε (FixedBytes n)) = .ok a := dif_pos a.length_toList

section
variable {α : Type} {a b c : List α} {n m : Nat}

theorem slice_append_left (h : a.length = n) :
    (slice (a ++ b) 0 n : RustM ε (List α)) = .ok a := by
  rw [slice_of_le (Nat.zero_le _) (by rw [List.length_append]; omega), List.drop_zero, Nat.sub_zero,
    List.take_left' h]

theorem slice_append_right (h : a.length = n) :
    (slice (a ++ b) n (a ++ b).length : RustM ε (List α)) = .ok b := by
  rw [slice_of_le (by rw [List.length_append]; omega) (Nat.le_refl _), List.drop_left' h,
    List.take_of_length_le (by rw [List.length_append]; omega)]

theorem slice_append_middle (ha : a.length = n) (hb : b.length = m) :
    (slice (a ++ b ++ c) n (n + m) : RustM ε (List α)) = .ok b := by
  rw [slice_of_le (Nat.le_add_right n m) (by simp only [List.length_append]; omega),
    List.append_assoc, List.drop_left' ha, Nat.add_sub_cancel_left, List.take_left' hb]

end

/-- A blob of two parts. -/
theorem exists_append_of_length {α : Type} {n m : Nat} {xs : List α} (h : xs.length = n + m) :
    ∃ a b, xs = a ++ b ∧ a.length = n ∧ b.length = m := by
  refine ⟨xs.take n, xs.drop n, (List.take_append_drop n xs).symm, ?_, ?_⟩
  · rw [List.length_take, h, Nat.min_eq_left (Nat.le_add_right n m)]
  · rw [List.length_drop, h, Nat.add_sub_cancel_left]

/-! ## What is hashed -/

/-- The key comes out of HKDF over both secrets, with `info`; the classical secret is not zero. -/
structure DerivedFrom (H : Hmac) (hkdf : Hkdf) (ssPq : List UInt8)
    (ssEc : FixedBytes x25519KeySize) (info : List UInt8) (key : List Nat) : Prop where
  contributory : ¬ ssEc.toList.all (· == 0) = true
  expanded : (expandSeedToPrimes H (hkdf hybridHkdfSalt (ssPq ++ ssEc.toList) info) :
    RustM String (List Nat)) = .ok key

theorem derivedFrom_iff {ssPq info : List UInt8} {ssEc : FixedBytes x25519KeySize}
    {key : List Nat} :
    DerivedFrom H hkdf ssPq ssEc info key ↔
      deriveNapqesKeyHybrid H hkdf ssPq ssEc info = .ok key := by
  rw [deriveNapqesKeyHybrid, if_neg (not_not.mpr ssEc.length_toList)]
  constructor
  · intro h
    rw [if_neg h.contributory]
    exact h.expanded
  · intro h
    split at h
    case isTrue => cases h
    case isFalse hzero => exact ⟨hzero, h⟩

/-- The sender's side, for any public key. -/
theorem derivedFrom_of_encapsulateHybrid {pk ct : List UInt8} {coins rng : Nat} {key : List Nat}
    (h : encapsulateHybrid H hkdf frodo x25519 pk coins rng = .ok (ct, key)) :
    ∃ pkPq, ∃ pkEcStatic : FixedBytes x25519KeySize, pk = pkPq ++ pkEcStatic.toList ∧
      pkPq.length = frodoPublicKeySize ∧
      ct = (frodo.encapsulate pkPq coins).2 ++
        (x25519.publicKey (x25519.randomFromRng rng)).toList ∧
      DerivedFrom H hkdf (frodo.encapsulate pkPq coins).1
        (x25519.diffieHellman (x25519.randomFromRng rng) pkEcStatic)
        (hybridTranscript pkPq (frodo.encapsulate pkPq coins).2 pkEcStatic
          (x25519.publicKey (x25519.randomFromRng rng))) key := by
  rw [encapsulateHybrid] at h
  split at h
  case isTrue => cases h
  case isFalse hlen =>
    obtain ⟨pkPq, pkEc, rfl, hpk, hec⟩ := exists_append_of_length (not_not.mp hlen)
    rw [slice_append_left hpk, ok_bind, slice_append_right hpk, ok_bind] at h
    split at h
    case isTrue => cases h
    case isFalse =>
      have hcopy := copyFromSlice_toList (ε := String) (⟨pkEc, hec⟩ : FixedBytes x25519KeySize)
      rw [hcopy] at h
      obtain ⟨peer, hpeer, h⟩ := bind_eq_ok.mp h
      obtain rfl := Except.ok.inj hpeer
      obtain ⟨key', hkey, hout⟩ := bind_eq_ok.mp h
      obtain ⟨rfl, rfl⟩ := Prod.mk.inj (Except.ok.inj hout)
      exact ⟨pkPq, ⟨pkEc, hec⟩, rfl, hpk, rfl, derivedFrom_iff.mpr hkey⟩

/-- The receiver's side, for any ciphertext and any secret key. -/
theorem derivedFrom_of_decapsulateHybrid {ct sk : List UInt8} {key : List Nat}
    (h : decapsulateHybrid H hkdf frodo x25519 ct sk = .ok key) :
    ∃ ctPq skPq pkPq, ∃ pkEcEphemeral skEc : FixedBytes x25519KeySize,
      ct = ctPq ++ pkEcEphemeral.toList ∧ sk = skPq ++ skEc.toList ++ pkPq ∧
      ctPq.length = frodoCiphertextSize ∧ skPq.length = frodoSecretKeySize ∧
      pkPq.length = frodoPublicKeySize ∧
      DerivedFrom H hkdf (frodo.decapsulate ctPq skPq)
        (x25519.diffieHellman (x25519.ofBytes skEc) pkEcEphemeral)
        (hybridTranscript pkPq ctPq (x25519.publicKey (x25519.ofBytes skEc)) pkEcEphemeral)
        key := by
  rw [decapsulateHybrid] at h
  split at h
  case isTrue => cases h
  case isFalse hctlen =>
    split at h
    case isTrue => cases h
    case isFalse hsklen =>
      obtain ⟨ctPq, eph, rfl, hct, heph⟩ := exists_append_of_length (not_not.mp hctlen)
      obtain ⟨front, pkPq, rfl, hfront, hpk⟩ := exists_append_of_length (not_not.mp hsklen)
      obtain ⟨skPq, skEc, rfl, hsk, hec⟩ := exists_append_of_length hfront
      rw [slice_append_left hct, ok_bind, slice_append_right hct, ok_bind, List.append_assoc,
        slice_append_left hsk, ok_bind, ← List.append_assoc, slice_append_middle hsk hec, ok_bind,
        slice_append_right hfront, ok_bind] at h
      split at h
      case isTrue => cases h
      case isFalse =>
        split at h
        case isTrue => cases h
        case isFalse =>
          have hcopy := fun (bytes : List UInt8) (hlen : bytes.length = x25519KeySize) =>
            copyFromSlice_toList (ε := String) (⟨bytes, hlen⟩ : FixedBytes x25519KeySize)
          rw [hcopy skEc hec, ok_bind, hcopy eph heph, ok_bind] at h
          exact ⟨ctPq, skPq, pkPq, ⟨eph, heph⟩, ⟨skEc, hec⟩, rfl, rfl, hct, hsk, hpk,
            derivedFrom_iff.mpr h⟩

/-! ## The exchange -/

section
variable (H hkdf frodo x25519)

/-- The transcript of an exchange. -/
def exchangeInfo (seed rng coins ephRng : Nat) : List UInt8 :=
  hybridTranscript (frodo.keypair seed).1 (frodo.encapsulate (frodo.keypair seed).1 coins).2
    (x25519.publicKey (x25519.randomFromRng rng))
    (x25519.publicKey (x25519.randomFromRng ephRng))

/-- The key of an exchange: both secrets and the transcript. -/
def exchangeKey (seed rng coins ephRng : Nat) : RustM String (List Nat) :=
  deriveNapqesKeyHybrid H hkdf (frodo.encapsulate (frodo.keypair seed).1 coins).1
    (x25519.diffieHellman (x25519.randomFromRng ephRng)
      (x25519.publicKey (x25519.randomFromRng rng)))
    (exchangeInfo frodo x25519 seed rng coins ephRng)

/-- The ciphertext of an exchange. -/
def exchangeCiphertext (seed coins ephRng : Nat) : List UInt8 :=
  (frodo.encapsulate (frodo.keypair seed).1 coins).2 ++
    (x25519.publicKey (x25519.randomFromRng ephRng)).toList

end

/-- The sender's side. -/
theorem encapsulateHybrid_eq (hfrodo : frodo.Encodes) (seed rng coins ephRng : Nat) :
    encapsulateHybrid H hkdf frodo x25519 (keygenHybrid frodo x25519 seed rng).1 coins ephRng =
      exchangeKey H hkdf frodo x25519 seed rng coins ephRng >>= fun key =>
        .ok (exchangeCiphertext frodo x25519 seed coins ephRng, key) := by
  have hpk := hfrodo.length_publicKey seed
  have hlen : ((frodo.keypair seed).1 ++
      (x25519.publicKey (x25519.randomFromRng rng)).toList).length = hybridPublicKeySize := by
    rw [List.length_append, hpk, FixedBytes.length_toList]
    rfl
  rw [encapsulateHybrid, keygenHybrid]
  simp only
  rw [if_neg (not_not.mpr hlen), slice_append_left hpk, ok_bind, slice_append_right hpk, ok_bind,
    if_neg (by rw [hfrodo.publicKeyFromBytes]; decide), copyFromSlice_toList, ok_bind]
  rfl

/-- The receiver's side. -/
theorem decapsulateHybrid_eq (hfrodo : frodo.Encodes) (hcorrect : frodo.Correct)
    (hx : x25519.Commutes) (seed rng coins ephRng : Nat) :
    decapsulateHybrid H hkdf frodo x25519 (exchangeCiphertext frodo x25519 seed coins ephRng)
      (keygenHybrid frodo x25519 seed rng).2 =
      exchangeKey H hkdf frodo x25519 seed rng coins ephRng := by
  have hct := hfrodo.length_ciphertext seed coins
  have hsk := hfrodo.length_secretKey seed
  have hpk := hfrodo.length_publicKey seed
  have hscalar : (x25519.toBytes (x25519.randomFromRng rng)).toList.length = x25519KeySize :=
    FixedBytes.length_toList _
  have hfront : ((frodo.keypair seed).2 ++
      (x25519.toBytes (x25519.randomFromRng rng)).toList).length =
        frodoSecretKeySize + x25519KeySize := by
    rw [List.length_append, hsk, hscalar]
  have hctlen : ((frodo.encapsulate (frodo.keypair seed).1 coins).2 ++
      (x25519.publicKey (x25519.randomFromRng ephRng)).toList).length = hybridCiphertextSize := by
    rw [List.length_append, hct, FixedBytes.length_toList]
    rfl
  have hsklen : ((frodo.keypair seed).2 ++
      (x25519.toBytes (x25519.randomFromRng rng)).toList ++ (frodo.keypair seed).1).length =
        hybridSecretKeySize := by
    rw [List.length_append, hfront, hpk]
    rfl
  rw [decapsulateHybrid, keygenHybrid, exchangeCiphertext]
  simp only
  rw [if_neg (not_not.mpr hctlen), if_neg (not_not.mpr hsklen), slice_append_left hct, ok_bind,
    slice_append_right hct, ok_bind, List.append_assoc, slice_append_left hsk, ok_bind,
    ← List.append_assoc, slice_append_middle hsk hscalar, ok_bind, slice_append_right hfront,
    ok_bind, if_neg (by rw [hfrodo.ciphertextFromBytes]; decide),
    if_neg (by rw [hfrodo.secretKeyFromBytes]; decide), copyFromSlice_toList, ok_bind,
    copyFromSlice_toList, ok_bind, hx.ofBytes_toBytes, hx.diffieHellman_comm,
    hcorrect.decapsulate_encapsulate]
  rfl

/-! ## The transcript -/

/-- The transcript determines its parts. -/
theorem hybridTranscript_inj {a b c d a' b' c' d' : List UInt8}
    (hlen : ∀ part ∈ [a, b, c, d, a', b', c', d'], part.length < 2 ^ 32)
    (h : hybridTranscript a b c d = hybridTranscript a' b' c' d') :
    a = a' ∧ b = b' ∧ c = c' ∧ d = d' := by
  simp only [List.mem_cons, List.not_mem_nil, or_false, forall_eq_or_imp, forall_eq] at hlen
  obtain ⟨ha, hb, hc, hd, ha', hb', hc', hd'⟩ := hlen
  have hparts := List.append_cancel_left h
  simp only [List.flatMap_cons, List.flatMap_nil, List.append_assoc] at hparts
  obtain ⟨heqa, hparts⟩ := @lenPrefixed_append_inj 4 _ _ _ _ ha ha' hparts
  obtain ⟨heqb, hparts⟩ := @lenPrefixed_append_inj 4 _ _ _ _ hb hb' hparts
  obtain ⟨heqc, hparts⟩ := @lenPrefixed_append_inj 4 _ _ _ _ hc hc' hparts
  obtain ⟨heqd, -⟩ := @lenPrefixed_append_inj 4 _ _ _ _ hd hd' hparts
  exact ⟨heqa, heqb, heqc, heqd⟩

/-- The transcript of an exchange determines its public values. -/
theorem exchangeInfo_inj (hfrodo : frodo.Encodes) {seed rng coins ephRng : Nat}
    {seed' rng' coins' ephRng' : Nat}
    (h : exchangeInfo frodo x25519 seed rng coins ephRng =
      exchangeInfo frodo x25519 seed' rng' coins' ephRng') :
    (frodo.keypair seed).1 = (frodo.keypair seed').1 ∧
      exchangeCiphertext frodo x25519 seed coins ephRng =
        exchangeCiphertext frodo x25519 seed' coins' ephRng' ∧
      x25519.publicKey (x25519.randomFromRng rng) =
        x25519.publicKey (x25519.randomFromRng rng') := by
  obtain ⟨hpk, hct, hstatic, heph⟩ := hybridTranscript_inj (by
    simp only [List.mem_cons, List.not_mem_nil, or_false, forall_eq_or_imp, forall_eq,
      hfrodo.length_publicKey, hfrodo.length_ciphertext, FixedBytes.length_toList]
    decide) h
  refine ⟨hpk, ?_, FixedBytes.ext hstatic⟩
  rw [exchangeCiphertext, hct, heph, exchangeCiphertext]

/-! ## Main result -/

/-- What a sender encapsulates to a generated key its holder decapsulates; the key comes out of HKDF
over both secrets and the transcript, on either side and for any blobs; and the transcript
determines the four public values it binds. -/
theorem hybrid_agreement (H : Hmac) (hkdf : Hkdf) (frodo : Frodo) (x25519 : X25519)
    (hcorrect : frodo.Correct) (hfrodo : frodo.Encodes) (hx : x25519.Commutes) :
    (∀ seed rng pk sk, keygenHybrid frodo x25519 seed rng = (pk, sk) →
      ∀ coins ephRng ct key,
        encapsulateHybrid H hkdf frodo x25519 pk coins ephRng = .ok (ct, key) →
          decapsulateHybrid H hkdf frodo x25519 ct sk = .ok key ∧
          DerivedFrom H hkdf (frodo.encapsulate (frodo.keypair seed).1 coins).1
            (x25519.diffieHellman (x25519.randomFromRng ephRng)
              (x25519.publicKey (x25519.randomFromRng rng)))
            (exchangeInfo frodo x25519 seed rng coins ephRng) key) ∧
    (∀ pk coins rng ct key, encapsulateHybrid H hkdf frodo x25519 pk coins rng = .ok (ct, key) →
      ∃ pkPq, ∃ pkEcStatic : FixedBytes x25519KeySize, pk = pkPq ++ pkEcStatic.toList ∧
        pkPq.length = frodoPublicKeySize ∧
        ct = (frodo.encapsulate pkPq coins).2 ++
          (x25519.publicKey (x25519.randomFromRng rng)).toList ∧
        DerivedFrom H hkdf (frodo.encapsulate pkPq coins).1
          (x25519.diffieHellman (x25519.randomFromRng rng) pkEcStatic)
          (hybridTranscript pkPq (frodo.encapsulate pkPq coins).2 pkEcStatic
            (x25519.publicKey (x25519.randomFromRng rng))) key) ∧
    (∀ ct sk key, decapsulateHybrid H hkdf frodo x25519 ct sk = .ok key →
      ∃ ctPq skPq pkPq, ∃ pkEcEphemeral skEc : FixedBytes x25519KeySize,
        ct = ctPq ++ pkEcEphemeral.toList ∧ sk = skPq ++ skEc.toList ++ pkPq ∧
        ctPq.length = frodoCiphertextSize ∧ skPq.length = frodoSecretKeySize ∧
        pkPq.length = frodoPublicKeySize ∧
        DerivedFrom H hkdf (frodo.decapsulate ctPq skPq)
          (x25519.diffieHellman (x25519.ofBytes skEc) pkEcEphemeral)
          (hybridTranscript pkPq ctPq (x25519.publicKey (x25519.ofBytes skEc)) pkEcEphemeral)
          key) ∧
    (∀ seed rng coins ephRng seed' rng' coins' ephRng',
      exchangeInfo frodo x25519 seed rng coins ephRng =
          exchangeInfo frodo x25519 seed' rng' coins' ephRng' →
        (frodo.keypair seed).1 = (frodo.keypair seed').1 ∧
        exchangeCiphertext frodo x25519 seed coins ephRng =
          exchangeCiphertext frodo x25519 seed' coins' ephRng' ∧
        x25519.publicKey (x25519.randomFromRng rng) =
          x25519.publicKey (x25519.randomFromRng rng')) ∧
    ∀ a b c d a' b' c' d', (∀ part ∈ [a, b, c, d, a', b', c', d'], part.length < 2 ^ 32) →
      hybridTranscript a b c d = hybridTranscript a' b' c' d' →
      a = a' ∧ b = b' ∧ c = c' ∧ d = d' := by
  refine ⟨?_, fun _ _ _ _ _ => derivedFrom_of_encapsulateHybrid,
    fun _ _ _ => derivedFrom_of_decapsulateHybrid, ?_, ?_⟩
  · intro seed rng pk sk hkeys coins ephRng ct key henc
    have hpk : pk = (keygenHybrid frodo x25519 seed rng).1 := by rw [hkeys]
    have hsk : sk = (keygenHybrid frodo x25519 seed rng).2 := by rw [hkeys]
    rw [hpk, encapsulateHybrid_eq hfrodo] at henc
    obtain ⟨key', hkey, hout⟩ := bind_eq_ok.mp henc
    obtain ⟨rfl, rfl⟩ := Prod.mk.inj (Except.ok.inj hout)
    refine ⟨?_, derivedFrom_iff.mpr hkey⟩
    rw [hsk, decapsulateHybrid_eq hfrodo hcorrect hx]
    exact hkey
  · intro seed rng coins ephRng seed' rng' coins' ephRng'
    exact exchangeInfo_inj hfrodo
  · intro a b c d a' b' c' d' hlen
    exact hybridTranscript_inj hlen

/-! ## A small instance -/

/-- Blobs of the declared sizes whose bytes repeat the randomness behind them. -/
def sizedFrodo : Frodo where
  keypair seed := (List.replicate frodoPublicKeySize (UInt8.ofNat seed),
    List.replicate frodoSecretKeySize (UInt8.ofNat seed))
  encapsulate pk coins := (pk.take 1 ++ [UInt8.ofNat coins],
    List.replicate frodoCiphertextSize (UInt8.ofNat coins))
  decapsulate ct sk := sk.take 1 ++ ct.take 1
  publicKeyFromBytes pk := pk.length == frodoPublicKeySize
  ciphertextFromBytes ct := ct.length == frodoCiphertextSize
  secretKeyFromBytes sk := sk.length == frodoSecretKeySize

theorem sizedFrodo_correct : sizedFrodo.Correct where
  decapsulate_encapsulate seed coins := by
    have hone : ∀ (n : Nat) (b : UInt8), 1 ≤ n → (List.replicate n b).take 1 = [b] := by
      intro n b hn
      rw [List.take_replicate, Nat.min_eq_left hn]
      rfl
    simp only [sizedFrodo, hone _ _ (show 1 ≤ frodoSecretKeySize by decide),
      hone _ _ (show 1 ≤ frodoCiphertextSize by decide),
      hone _ _ (show 1 ≤ frodoPublicKeySize by decide)]

theorem sizedFrodo_encodes : sizedFrodo.Encodes where
  length_publicKey seed := List.length_replicate
  length_secretKey seed := List.length_replicate
  length_ciphertext seed coins := List.length_replicate
  publicKeyFromBytes seed := by simp [sizedFrodo]
  secretKeyFromBytes seed := by simp [sizedFrodo]
  ciphertextFromBytes seed coins := by simp [sizedFrodo]

/-- Powers of the base point's coordinate in the multiplicative group of the same field. -/
def powX25519 : X25519 where
  Secret := FixedBytes x25519KeySize
  randomFromRng rng := ⟨beBytes 32 rng, length_beBytes 32 rng⟩
  toBytes s := s
  ofBytes s := s
  publicKey s := ⟨beBytes 32 (9 ^ beNat s.toList % (2 ^ 255 - 19)), length_beBytes 32 _⟩
  diffieHellman s pk :=
    ⟨beBytes 32 (beNat pk.toList ^ beNat s.toList % (2 ^ 255 - 19)), length_beBytes 32 _⟩

theorem powX25519_commutes : powX25519.Commutes where
  ofBytes_toBytes s := rfl
  diffieHellman_comm a b := by
    have hfield : ∀ n : Nat, beNat (beBytes 32 (n % (2 ^ 255 - 19))) = n % (2 ^ 255 - 19) := by
      intro n
      apply beNat_beBytes_of_lt
      exact Nat.lt_trans (Nat.mod_lt n (by decide)) (by decide)
    apply FixedBytes.ext
    simp only [powX25519, hfield]
    rw [← Nat.pow_mod, ← Nat.pow_mod, ← Nat.pow_mul, ← Nat.pow_mul, Nat.mul_comm]

/-- Both sides of one exchange derive the thirteen primes of the small instance. -/
theorem hybrid_agreement_small :
    ∃ ct, encapsulateHybrid smallHmac smallHkdf sizedFrodo powX25519
        (keygenHybrid sizedFrodo powX25519 5 1).1 7 2 = .ok (ct, smallPrimes) ∧
      decapsulateHybrid smallHmac smallHkdf sizedFrodo powX25519 ct
        (keygenHybrid sizedFrodo powX25519 5 1).2 = .ok smallPrimes := by
  have hkey : exchangeKey smallHmac smallHkdf sizedFrodo powX25519 5 1 7 2 = .ok smallPrimes := by
    rw [exchangeKey, deriveNapqesKeyHybrid, if_neg (by simp), if_neg (by decide +kernel)]
    exact expandSeedLoop_eq_ok rfl (candidate_smallHmac _) keyValid_smallPrimes.prime
      keyValid_smallPrimes.nodup 0 (Nat.zero_le _)
  have henc := @encapsulateHybrid_eq smallHmac smallHkdf sizedFrodo powX25519 sizedFrodo_encodes 5 1
    7 2
  rw [hkey, ok_bind] at henc
  refine ⟨_, henc, ?_⟩
  exact ((hybrid_agreement smallHmac smallHkdf sizedFrodo powX25519 sizedFrodo_correct
    sizedFrodo_encodes powX25519_commutes).1 5 1 _ _ rfl 7 2 _ _ henc).1

end Napqes.Rust
