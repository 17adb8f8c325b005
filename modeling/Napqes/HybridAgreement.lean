import Napqes.Agreement
import Napqes.Python.Hybrid
import Napqes.Rust.Proofs.Hybrid
import Napqes.SeedExpansion

/-!
# The ports agree on key establishment

Rust and Python cut the same blobs at the same places and derive the same tuples, so a key that
one port encapsulates is the key that the other one decapsulates. The Rust expansion gives up one
counter earlier than the Python one, with a panic.
-/

namespace Napqes

open Rust (Frodo Hkdf X25519 x25519KeySize)

variable {α β : Type} {H : Hmac} {hkdf : Hkdf} {mathSqrt : Nat → Nat} {frodo : Frodo}
  {x25519 : X25519} {package : Python.X25519Package x25519}

/-- The byte encodings of the KEM are told by their lengths. -/
structure FrodoSized (frodo : Frodo) : Prop where
  publicKeyFromBytes : ∀ bytes,
    frodo.publicKeyFromBytes bytes = true ↔ bytes.length = Rust.frodoPublicKeySize
  secretKeyFromBytes : ∀ bytes,
    frodo.secretKeyFromBytes bytes = true ↔ bytes.length = Rust.frodoSecretKeySize
  ciphertextFromBytes : ∀ bytes,
    frodo.ciphertextFromBytes bytes = true ↔ bytes.length = Rust.frodoCiphertextSize
  length_ciphertext : ∀ pk coins, pk.length = Rust.frodoPublicKeySize →
    (frodo.encapsulate pk coins).2.length = Rust.frodoCiphertextSize

/-- The package computes X25519: it reads every 32 bytes as a key, and `exchange` returns the shared
secret or refuses one of small order. -/
structure ComputesX25519 (x25519 : X25519) (package : Python.X25519Package x25519) : Prop where
  fromPublicBytes : ∀ bytes : FixedBytes x25519KeySize,
    package.fromPublicBytes bytes.toList = .ok bytes
  fromPrivateBytes : ∀ bytes : FixedBytes x25519KeySize,
    package.fromPrivateBytes bytes.toList = .ok (x25519.ofBytes bytes)
  shared : ∀ s pk, (x25519.diffieHellman s pk).toList.any (· != 0) = true →
    package.exchange s pk = .ok (x25519.diffieHellman s pk).toList
  small_order : ∀ s pk, (x25519.diffieHellman s pk).toList.any (· != 0) = false →
    package.exchange s pk = .ok (x25519.diffieHellman s pk).toList ∨
      ∃ msg, package.exchange s pk = Python.valueError msg

/-- The two calls agree, unless the counter of the Rust call overflows. -/
def AgreeOrOverflows (f : α → β) (x : Rust.RustM String α) (y : Python.PyM β) : Prop :=
  x = Rust.panics "attempt to add with overflow" ∨ Agree Python.PyErr.IsValueError f x y

theorem AgreeOrOverflows.err {f : α → β} {x : Rust.RustM String α} {y : Python.PyM β} {e : String}
    {msg : String} (hx : x = Rust.err e) (hy : y = Python.valueError msg) :
    AgreeOrOverflows f x y :=
  Or.inr (Or.inr ⟨e, .valueError msg, hx, hy, trivial⟩)

/-- What is built from the value of calls that agree. -/
theorem AgreeOrOverflows.map {x : Rust.RustM String α} {y : Python.PyM α}
    (h : AgreeOrOverflows id x y) (g : α → β) :
    AgreeOrOverflows id (x >>= fun a => .ok (g a)) (y >>= fun a => .ok (g a)) := by
  rcases h with rfl | ⟨a, rfl, rfl⟩ | ⟨e, e', rfl, rfl, he⟩
  · exact Or.inl rfl
  · exact Or.inr (Or.inl ⟨g a, rfl, rfl⟩)
  · exact Or.inr (Or.inr ⟨e, e', rfl, rfl, he⟩)

/-! ## Derivations -/

/-- The expansion of a seed. -/
theorem expandSeedToPrimes_agreeOrOverflows (hsqrt : Python.SqrtExact mathSqrt)
    (seed : List UInt8) :
    AgreeOrOverflows id (Rust.expandSeedToPrimes H seed)
      (Python.expandSeedToPrimes H mathSqrt seed Python.napqesKeyCount) := by
  rw [Rust.expandSeedToPrimes_eq, Python.expandSeedToPrimes_eq, hits_python_isPrime hsqrt,
    show Python.napqesKeyCount = Rust.napqesKeyCount from rfl]
  by_cases hlen : Rust.napqesKeyCount ≤
      (hits primeTest (Rust.candidate H seed) Rust.expandBudget).length
  · have hmore : Rust.expandBudget ≤ 256 ^ 4 := by decide
    have hkept := (hits_isPrefix primeTest (Rust.candidate H seed) hmore).length_le
    refine Or.inr (Or.inl ⟨_, if_pos hlen, ?_⟩)
    rw [if_pos (hlen.trans hkept), take_hits_of_le hmore hlen, id]
  · exact Or.inl (if_neg hlen)

/-- The v8 key of a shared secret. -/
theorem deriveV8Key_agree (hsqrt : Python.SqrtExact mathSqrt) (sharedSecret : List UInt8) :
    AgreeOrOverflows (fun key : Rust.NapqesKey => (key.primes, key.sk.toList))
      (Rust.deriveV8Key H hkdf sharedSecret) (Python.deriveV8Key H hkdf mathSqrt sharedSecret) := by
  rw [Rust.deriveV8Key, Python.deriveV8Key]
  rcases expandSeedToPrimes_agreeOrOverflows (H := H) hsqrt
    (hkdf Rust.hkdfSalt sharedSecret Rust.hkdfInfo).toList with
    hpanic | ⟨primes, hrust, hpy⟩ | ⟨e, e', hrust, hpy, he⟩
  · refine Or.inl ?_
    rw [Rust.deriveNapqesKey, hpanic]
    rfl
  · refine Or.inr (Or.inl ⟨⟨primes, Rust.deriveV8Sk hkdf sharedSecret,
      Rust.validateKey_of_expandSeedToPrimes hrust⟩, ?_, ?_⟩)
    · rw [Rust.deriveNapqesKey, hrust, ok_bind]
      exact Rust.NapqesKey.new_eq_ok _ _
    · rw [show Python.deriveNapqesKey H hkdf mathSqrt sharedSecret = .ok primes from hpy, ok_bind]
      rfl
  · exact Or.inr (Or.inr ⟨e, e', by rw [Rust.deriveNapqesKey, hrust]; rfl,
      by rw [show Python.deriveNapqesKey H hkdf mathSqrt sharedSecret = .error e' from hpy]; rfl,
      he⟩)

theorem all_eq_zero_iff (bytes : List UInt8) :
    bytes.all (· == 0) = true ↔ ¬ bytes.any (· != 0) = true := by
  simp

/-- The hybrid derivation, where the Python port may have refused the result of small order. -/
theorem deriveNapqesKeyHybrid_agree (hsqrt : Python.SqrtExact mathSqrt)
    (hpackage : ComputesX25519 x25519 package) (s : x25519.Secret)
    (pk : FixedBytes x25519KeySize)
    (ssPq transcript : List UInt8) :
    AgreeOrOverflows id
      (Rust.deriveNapqesKeyHybrid H hkdf ssPq (x25519.diffieHellman s pk) transcript)
      (package.exchange s pk >>= fun ssEc => Python.deriveNapqesKeyHybrid H hkdf mathSqrt ssPq ssEc
        transcript) := by
  have hlen : (x25519.diffieHellman s pk).toList.length = x25519KeySize :=
    FixedBytes.length_toList _
  rw [Rust.deriveNapqesKeyHybrid, if_neg (not_not.mpr hlen)]
  by_cases hany : (x25519.diffieHellman s pk).toList.any (· != 0) = true
  · rw [if_neg fun h => (all_eq_zero_iff _).mp h hany, hpackage.shared s pk hany, ok_bind,
      Python.deriveNapqesKeyHybrid]
    dsimp only
    rw [if_neg (not_not.mpr hlen), if_neg (not_not.mpr hany)]
    exact expandSeedToPrimes_agreeOrOverflows hsqrt _
  · rw [if_pos ((all_eq_zero_iff _).mpr hany)]
    rcases hpackage.small_order s pk (by simpa using hany) with hok | ⟨msg, hraise⟩
    · rw [hok, ok_bind, Python.deriveNapqesKeyHybrid]
      dsimp only
      rw [if_neg (not_not.mpr hlen), if_pos hany]
      exact .err rfl rfl
    · rw [hraise]
      exact .err rfl rfl

theorem copyFromSlice_of_length {bytes : List UInt8} (h : bytes.length = x25519KeySize) :
    (Rust.copyFromSlice x25519KeySize bytes : Rust.RustM String (FixedBytes x25519KeySize)) =
      .ok ⟨bytes, h⟩ := dif_pos h

/-- The transcript of parts that fit their length fields. -/
theorem hybridTranscript_eq_ok {a b c d : List UInt8}
    (h : ∀ part ∈ [a, b, c, d], part.length < 2 ^ 32) :
    Python.hybridTranscript a b c d = .ok (Rust.hybridTranscript a b c d) := by
  simp only [List.mem_cons, List.not_mem_nil, or_false, forall_eq_or_imp, forall_eq] at h
  obtain ⟨ha, hb, hc, hd⟩ := h
  rw [Python.hybridTranscript]
  simp only [List.mapM_cons, List.mapM_nil, @Python.toBytes_of_lt 4 _ ha,
    @Python.toBytes_of_lt 4 _ hb, @Python.toBytes_of_lt 4 _ hc, @Python.toBytes_of_lt 4 _ hd]
  rfl

/-- The transcript of parts of the declared sizes. -/
theorem transcript_of_lengths {pkPq ctPq pkEcStatic pkEcEphemeral : List UInt8}
    (hpk : pkPq.length = Rust.frodoPublicKeySize) (hct : ctPq.length = Rust.frodoCiphertextSize)
    (hstatic : pkEcStatic.length = x25519KeySize)
    (hephemeral : pkEcEphemeral.length = x25519KeySize) :
    Python.hybridTranscript pkPq ctPq pkEcStatic pkEcEphemeral =
      .ok (Rust.hybridTranscript pkPq ctPq pkEcStatic pkEcEphemeral) := by
  apply hybridTranscript_eq_ok
  simp only [List.mem_cons, List.not_mem_nil, or_false, forall_eq_or_imp, forall_eq, hpk, hct,
    hstatic, hephemeral]
  decide

/-! ## The exchange -/

theorem keygenHybrid_eq (seed rng : Nat) :
    Python.keygenHybrid frodo x25519 seed rng = Rust.keygenHybrid frodo x25519 seed rng := rfl

/-- The two halves of a blob of the right length. -/
theorem slices_of_length {bytes : List UInt8} {n m : Nat} (h : bytes.length = n + m) :
    (Rust.slice bytes 0 n : Rust.RustM String (List UInt8)) = .ok (bytes.take n) ∧
      (Rust.slice bytes n bytes.length : Rust.RustM String (List UInt8)) =
        .ok (bytes.drop n) := by
  constructor
  · rw [Rust.slice_of_le (Nat.zero_le _) (by omega)]
    rfl
  · rw [Rust.slice_of_le (by omega) (Nat.le_refl _), List.take_of_length_le]
    rw [List.length_drop]

theorem encapsulateHybrid_agree (hsqrt : Python.SqrtExact mathSqrt) (hfrodo : FrodoSized frodo)
    (hpackage : ComputesX25519 x25519 package) (publicKey : List UInt8) (coins rng : Nat) :
    AgreeOrOverflows id (Rust.encapsulateHybrid H hkdf frodo x25519 publicKey coins rng)
      (Python.encapsulateHybrid H hkdf mathSqrt frodo x25519 package publicKey coins rng) := by
  rw [Rust.encapsulateHybrid, Python.encapsulateHybrid]
  dsimp only
  by_cases hlen : publicKey.length = Rust.hybridPublicKeySize
  · have hpk : (publicKey.take Rust.frodoPublicKeySize).length = Rust.frodoPublicKeySize := by
      rw [List.length_take, hlen]
      decide
    have hec : (publicKey.drop Rust.frodoPublicKeySize).length = x25519KeySize := by
      rw [List.length_drop, hlen]
      decide
    obtain ⟨hfront, hback⟩ := slices_of_length (n := Rust.frodoPublicKeySize) hlen
    rw [if_neg (not_not.mpr hlen),
      if_neg (show ¬ publicKey.length ≠ Python.hybridPublicKeySize from not_not.mpr hlen), hfront,
      ok_bind, hback, ok_bind,
      show Python.frodoPublicKeySize = Rust.frodoPublicKeySize from rfl]
    generalize publicKey.take Rust.frodoPublicKeySize = pkPq at hpk ⊢
    generalize publicKey.drop Rust.frodoPublicKeySize = pkEcStatic at hec ⊢
    have hct := hfrodo.length_ciphertext pkPq coins hpk
    rw [if_neg (not_not.mpr ((hfrodo.publicKeyFromBytes _).mpr hpk)), copyFromSlice_of_length hec,
      ok_bind, hpackage.fromPublicBytes ⟨pkEcStatic, hec⟩, ok_bind]
    simp only [transcript_of_lengths hpk hct hec (FixedBytes.length_toList _), ok_bind]
    have hderive := @deriveNapqesKeyHybrid_agree H hkdf mathSqrt _ _ hsqrt hpackage
      (x25519.randomFromRng rng) ⟨pkEcStatic, hec⟩ (frodo.encapsulate pkPq coins).1
      (Rust.hybridTranscript pkPq (frodo.encapsulate pkPq coins).2 pkEcStatic
        (x25519.publicKey (x25519.randomFromRng rng)).toList)
    have hreturn := hderive.map fun key => ((frodo.encapsulate pkPq coins).2 ++
      (x25519.publicKey (x25519.randomFromRng rng)).toList, key)
    rw [bind_assoc] at hreturn
    exact hreturn
  · rw [if_pos hlen]
    exact .err rfl (if_pos hlen)

theorem decapsulateHybrid_agree (hsqrt : Python.SqrtExact mathSqrt) (hfrodo : FrodoSized frodo)
    (hpackage : ComputesX25519 x25519 package) (ciphertext secretKey : List UInt8) :
    AgreeOrOverflows id (Rust.decapsulateHybrid H hkdf frodo x25519 ciphertext secretKey)
      (Python.decapsulateHybrid H hkdf mathSqrt frodo x25519 package ciphertext secretKey) := by
  rw [Rust.decapsulateHybrid, Python.decapsulateHybrid]
  dsimp only
  by_cases hctlen : ciphertext.length = Rust.hybridCiphertextSize
  · by_cases hsklen : secretKey.length = Rust.hybridSecretKeySize
    · have hct : (ciphertext.take Rust.frodoCiphertextSize).length = Rust.frodoCiphertextSize := by
        rw [List.length_take, hctlen]
        decide
      have heph : (ciphertext.drop Rust.frodoCiphertextSize).length = x25519KeySize := by
        rw [List.length_drop, hctlen]
        decide
      have hsk : (secretKey.take Rust.frodoSecretKeySize).length = Rust.frodoSecretKeySize := by
        rw [List.length_take, hsklen]
        decide
      have hskec : ((secretKey.drop Rust.frodoSecretKeySize).take x25519KeySize).length =
          x25519KeySize := by
        rw [List.length_take, List.length_drop, hsklen]
        decide
      have hpk : (secretKey.drop (Rust.frodoSecretKeySize + x25519KeySize)).length =
          Rust.frodoPublicKeySize := by
        rw [List.length_drop, hsklen]
        decide
      obtain ⟨hctfront, hctback⟩ := slices_of_length (n := Rust.frodoCiphertextSize) hctlen
      have hskfront : (Rust.slice secretKey 0 Rust.frodoSecretKeySize :
          Rust.RustM String (List UInt8)) = .ok (secretKey.take Rust.frodoSecretKeySize) :=
        Rust.slice_of_le (Nat.zero_le _) (by rw [hsklen]; decide)
      have hskmid : (Rust.slice secretKey Rust.frodoSecretKeySize
          (Rust.frodoSecretKeySize + x25519KeySize) : Rust.RustM String (List UInt8)) =
            .ok ((secretKey.drop Rust.frodoSecretKeySize).take x25519KeySize) := by
        rw [Rust.slice_of_le (Nat.le_add_right _ _) (by rw [hsklen]; decide),
          Nat.add_sub_cancel_left]
      obtain ⟨-, hskback⟩ := slices_of_length (n := Rust.frodoSecretKeySize + x25519KeySize) hsklen
      rw [if_neg (not_not.mpr hctlen), if_neg (not_not.mpr hsklen),
        if_neg (show ¬ ciphertext.length ≠ Python.hybridCiphertextSize from not_not.mpr hctlen),
        if_neg (show ¬ secretKey.length ≠ Python.hybridSecretKeySize from not_not.mpr hsklen),
        hctfront, ok_bind, hctback, ok_bind, hskfront, ok_bind, hskmid, ok_bind, hskback, ok_bind,
        show Python.frodoCiphertextSize = Rust.frodoCiphertextSize from rfl,
        show Python.frodoSecretKeySize = Rust.frodoSecretKeySize from rfl]
      generalize ciphertext.take Rust.frodoCiphertextSize = ctPq at hct ⊢
      generalize ciphertext.drop Rust.frodoCiphertextSize = pkEcEphemeral at heph ⊢
      generalize secretKey.take Rust.frodoSecretKeySize = skPq at hsk ⊢
      generalize (secretKey.drop Rust.frodoSecretKeySize).take x25519KeySize = skEc at hskec ⊢
      generalize secretKey.drop (Rust.frodoSecretKeySize + x25519KeySize) = pkPq at hpk ⊢
      rw [if_neg (not_not.mpr ((hfrodo.ciphertextFromBytes _).mpr hct)),
        if_neg (not_not.mpr ((hfrodo.secretKeyFromBytes _).mpr hsk)),
        copyFromSlice_of_length hskec, ok_bind, copyFromSlice_of_length heph, ok_bind,
        hpackage.fromPrivateBytes ⟨skEc, hskec⟩, ok_bind,
        hpackage.fromPublicBytes ⟨pkEcEphemeral, heph⟩, ok_bind]
      simp only [transcript_of_lengths hpk hct (FixedBytes.length_toList _) heph, ok_bind]
      exact deriveNapqesKeyHybrid_agree hsqrt hpackage _ _ _ _
    · rw [if_neg (not_not.mpr hctlen), if_pos hsklen,
        if_neg (show ¬ ciphertext.length ≠ Python.hybridCiphertextSize from not_not.mpr hctlen)]
      exact .err rfl (if_pos hsklen)
  · rw [if_pos hctlen]
    exact .err rfl (if_pos hctlen)

/-- The ciphertext that the Python port returns, whatever the key. -/
theorem ciphertext_of_encapsulateHybrid {publicKey ct : List UInt8} {coins rng : Nat}
    {key : List Nat}
    (h : Python.encapsulateHybrid H hkdf mathSqrt frodo x25519 package publicKey coins rng =
      .ok (ct, key)) :
    ct = (frodo.encapsulate (publicKey.take Rust.frodoPublicKeySize) coins).2 ++
      (x25519.publicKey (x25519.randomFromRng rng)).toList := by
  rw [Python.encapsulateHybrid] at h
  dsimp only at h
  split at h
  case isTrue => cases h
  case isFalse =>
    obtain ⟨peer, -, h⟩ := bind_eq_ok.mp h
    obtain ⟨ssEc, -, h⟩ := bind_eq_ok.mp h
    obtain ⟨transcript, -, h⟩ := bind_eq_ok.mp h
    obtain ⟨key', -, h⟩ := bind_eq_ok.mp h
    exact (Prod.mk.inj (Except.ok.inj h)).1.symm

/-! ## Main result -/

/-- The ports interoperate: they derive the same v8 key from every secret, generate the same key
pairs, encapsulate to every byte string alike and decapsulate every pair of byte strings alike (with
an error on both sides or with the same key), unless the counter of the Rust expansion overflows; so
what either port encapsulates to a generated key the other one decapsulates to the same key. -/
theorem hybrid_ports_agree (H : Hmac) (hkdf : Hkdf) (mathSqrt : Nat → Nat)
    (hsqrt : Python.SqrtExact mathSqrt) (frodo : Frodo) (hcorrect : frodo.Correct)
    (hencodes : frodo.Encodes) (hsized : FrodoSized frodo) (x25519 : X25519)
    (hx : x25519.Commutes) (package : Python.X25519Package x25519)
    (hpackage : ComputesX25519 x25519 package) :
    (∀ sharedSecret,
      AgreeOrOverflows (fun key : Rust.NapqesKey => (key.primes, key.sk.toList))
        (Rust.deriveV8Key H hkdf sharedSecret)
        (Python.deriveV8Key H hkdf mathSqrt sharedSecret)) ∧
    (∀ publicKey coins rng,
      AgreeOrOverflows id (Rust.encapsulateHybrid H hkdf frodo x25519 publicKey coins rng)
        (Python.encapsulateHybrid H hkdf mathSqrt frodo x25519 package publicKey coins rng)) ∧
    (∀ ciphertext secretKey,
      AgreeOrOverflows id (Rust.decapsulateHybrid H hkdf frodo x25519 ciphertext secretKey)
        (Python.decapsulateHybrid H hkdf mathSqrt frodo x25519 package ciphertext secretKey)) ∧
    (∀ seed rng pk sk, Python.keygenHybrid frodo x25519 seed rng = (pk, sk) →
      Rust.keygenHybrid frodo x25519 seed rng = (pk, sk) ∧
      ∀ coins ephRng ct key,
        (Rust.encapsulateHybrid H hkdf frodo x25519 pk coins ephRng = .ok (ct, key) →
          Python.decapsulateHybrid H hkdf mathSqrt frodo x25519 package ct sk = .ok key) ∧
        (Python.encapsulateHybrid H hkdf mathSqrt frodo x25519 package pk coins ephRng =
            .ok (ct, key) →
          AgreeOrOverflows id (Rust.decapsulateHybrid H hkdf frodo x25519 ct sk) (.ok key))) := by
  refine ⟨fun sharedSecret => deriveV8Key_agree hsqrt sharedSecret,
    fun pk coins rng => encapsulateHybrid_agree hsqrt hsized hpackage pk coins rng,
    fun ct sk => decapsulateHybrid_agree hsqrt hsized hpackage ct sk, ?_⟩
  intro seed rng pk sk hkeys
  have hrust : Rust.keygenHybrid frodo x25519 seed rng = (pk, sk) := by
    rw [← keygenHybrid_eq, hkeys]
  have hpk : pk = (Rust.keygenHybrid frodo x25519 seed rng).1 := by rw [hrust]
  have hsk : sk = (Rust.keygenHybrid frodo x25519 seed rng).2 := by rw [hrust]
  refine ⟨hrust, fun coins ephRng ct key => ⟨fun henc => ?_, fun henc => ?_⟩⟩
  · rw [hpk, Rust.encapsulateHybrid_eq hencodes] at henc
    obtain ⟨key', hkey, hout⟩ := bind_eq_ok.mp henc
    obtain ⟨rfl, rfl⟩ := Prod.mk.inj (Except.ok.inj hout)
    have hdec := @Rust.decapsulateHybrid_eq H hkdf _ _ hencodes hcorrect hx seed rng coins
      ephRng
    rw [← hsk, hkey] at hdec
    rcases @decapsulateHybrid_agree H hkdf _ _ _ _ hsqrt hsized hpackage
        (Rust.exchangeCiphertext frodo x25519 seed coins ephRng) sk with
      hpanic | ⟨key, hok, hpy⟩ | ⟨e, e', herr, -, -⟩
    · rw [hdec] at hpanic
      cases hpanic
    · rw [hdec] at hok
      obtain rfl := Except.ok.inj hok
      exact hpy
    · rw [hdec] at herr
      cases herr
  · have hct : ct = Rust.exchangeCiphertext frodo x25519 seed coins ephRng := by
      rw [ciphertext_of_encapsulateHybrid henc, hpk, Rust.keygenHybrid,
        List.take_left' (hencodes.length_publicKey seed)]
      rfl
    rw [hct, hsk, Rust.decapsulateHybrid_eq hencodes hcorrect hx]
    -- The Rust encapsulation with the same randomness derives the key that is decapsulated.
    have hagree := @encapsulateHybrid_agree H hkdf _ _ _ _ hsqrt hsized hpackage pk coins
      ephRng
    rw [henc, hpk, Rust.encapsulateHybrid_eq hencodes] at hagree
    rcases hkey : Rust.exchangeKey H hkdf frodo x25519 seed rng coins ephRng with e | key'
    · rw [hkey] at hagree
      rcases hagree with hpanic | ⟨_, hok, -⟩ | ⟨_, _, -, herr, -⟩
      · rw [error_bind] at hpanic
        obtain rfl := Except.error.inj hpanic
        exact Or.inl rfl
      · cases hok
      · cases herr
    · rw [hkey] at hagree
      rcases hagree with hpanic | ⟨out, hok, hpy⟩ | ⟨_, _, -, herr, -⟩
      · cases hpanic
      · obtain rfl := Except.ok.inj hok
        exact Or.inr (Or.inl ⟨key', rfl, congrArg Except.ok (Prod.mk.inj (Except.ok.inj hpy)).2⟩)
      · cases herr

/-- The package of the small instance: it refuses only what is not 32 bytes long. -/
def powPackage : Python.X25519Package Rust.powX25519 where
  fromPublicBytes bytes :=
    if h : bytes.length = x25519KeySize then .ok ⟨bytes, h⟩
    else Python.valueError "An X25519 public key is 32 bytes long"
  fromPrivateBytes bytes :=
    if h : bytes.length = x25519KeySize then .ok (Rust.powX25519.ofBytes ⟨bytes, h⟩)
    else Python.valueError "An X25519 private key is 32 bytes long"
  exchange s pk := .ok (Rust.powX25519.diffieHellman s pk).toList

theorem computesX25519_powPackage : ComputesX25519 Rust.powX25519 powPackage where
  fromPublicBytes bytes := dif_pos bytes.length_toList
  fromPrivateBytes bytes := dif_pos bytes.length_toList
  shared _ _ _ := rfl
  small_order _ _ _ := Or.inl rfl

theorem frodoSized_sizedFrodo : FrodoSized Rust.sizedFrodo where
  publicKeyFromBytes _ := beq_iff_eq
  secretKeyFromBytes _ := beq_iff_eq
  ciphertextFromBytes _ := beq_iff_eq
  length_ciphertext _ _ _ := List.length_replicate

/-- In the small instance the Rust port encapsulates and the Python port decapsulates. -/
theorem hybrid_ports_agree_small :
    ∃ ct, Rust.encapsulateHybrid Rust.smallHmac Rust.smallHkdf Rust.sizedFrodo Rust.powX25519
        (Rust.keygenHybrid Rust.sizedFrodo Rust.powX25519 5 1).1 7 2 = .ok (ct, Rust.smallPrimes) ∧
      Python.decapsulateHybrid Rust.smallHmac Rust.smallHkdf Nat.sqrt Rust.sizedFrodo
        Rust.powX25519 powPackage
        ct (Rust.keygenHybrid Rust.sizedFrodo Rust.powX25519 5 1).2 = .ok Rust.smallPrimes := by
  have hkey : Rust.exchangeKey Rust.smallHmac Rust.smallHkdf Rust.sizedFrodo Rust.powX25519
      5 1 7 2 = .ok Rust.smallPrimes := by
    rw [Rust.exchangeKey, Rust.deriveNapqesKeyHybrid, if_neg (by simp),
      if_neg (by decide +kernel)]
    exact Rust.expandSeedLoop_eq_ok rfl (Rust.candidate_smallHmac _)
      Rust.keyValid_smallPrimes.prime Rust.keyValid_smallPrimes.nodup 0 (Nat.zero_le _)
  have henc := @Rust.encapsulateHybrid_eq Rust.smallHmac Rust.smallHkdf Rust.sizedFrodo
    Rust.powX25519 Rust.sizedFrodo_encodes 5 1 7 2
  rw [hkey, ok_bind] at henc
  obtain ⟨-, -, -, hexchange⟩ := hybrid_ports_agree Rust.smallHmac Rust.smallHkdf Nat.sqrt
    (fun _ _ => rfl) Rust.sizedFrodo Rust.sizedFrodo_correct Rust.sizedFrodo_encodes
    frodoSized_sizedFrodo
    Rust.powX25519 Rust.powX25519_commutes powPackage computesX25519_powPackage
  exact ⟨_, henc, ((hexchange 5 1 _ _ rfl).2 7 2 _ _).1 henc⟩

end Napqes
