import Napqes.C.Proofs.ReadingV7
import Napqes.Python.Proofs.BlockV7
import Napqes.Rust.Proofs.ReadingV7

/-!
# When the v7 block decoders agree

Rust returns what Python returns, or nothing. C narrows each value to a byte and its caller receives
the bytes up to a `NUL`, so C and the others agree on messages of non-zero bytes only.
-/

namespace Napqes

variable {H : Hmac} {noise : Rust.Noise} {mathSqrt : Nat → Nat} {key : List Nat}
  {kb nonce aad ciphertext masked : List UInt8}

/-- Any two of the three decoders that succeed return the same code points. -/
structure AgreeV7 (H : Hmac) (noise : Rust.Noise) (mathSqrt : Nat → Nat) (key : List Nat)
    (aad ciphertext : List UInt8) : Prop where
  rust_python : ∀ s cps, Rust.decryptBytes H noise ciphertext key aad = .ok s →
    Python.decryptBytes H noise mathSqrt ciphertext key aad = .ok cps → s.codepoints = cps
  rust_c : ∀ s buffer, Rust.decryptBytes H noise ciphertext key aad = .ok s →
    C.napqesDecryptBytes H noise ciphertext (key.map UInt64.ofNat) aad = .ok buffer →
      s.codepoints = (C.cString buffer).map UInt8.toNat
  python_c : ∀ cps buffer, Python.decryptBytes H noise mathSqrt ciphertext key aad = .ok cps →
    C.napqesDecryptBytes H noise ciphertext (key.map UInt64.ofNat) aad = .ok buffer →
      cps = (C.cString buffer).map UInt8.toNat

/-! ## One token list, two readings -/

theorem mem_of_mem_free {noise : Nat → Bool} {pos t : Nat} {tokens : List Nat}
    (h : t ∈ Schedule.free noise pos tokens) : t ∈ tokens := by
  induction tokens generalizing pos with
  | nil => cases h
  | cons token tokens ih =>
      rw [Schedule.free] at h
      split at h
      case isTrue => exact List.mem_cons_of_mem _ (ih h)
      case isFalse =>
        rcases List.mem_cons.mp h with rfl | h
        · exact List.mem_cons_self
        · exact List.mem_cons_of_mem _ (ih h)

theorem lt_of_mem_realTokens {t : Nat} (h : t ∈ realTokens H kb nonce noise masked) :
    t < 2 ^ 64 := by
  obtain ⟨chunk, hchunk, rfl⟩ := List.mem_map.mp (mem_of_mem_free h)
  have hpow : 256 ^ chunk.length ≤ 256 ^ 8 :=
    Nat.pow_le_pow_right (by decide) (length_le_of_mem_chunksExact hchunk)
  exact Nat.lt_of_lt_of_le (beNat_lt chunk) hpow

/-- As far as Python reads code points, C reads the same values. -/
theorem map_take_wordValues (hkey : KeyValid key) {n : Nat}
    (hcps : ∀ v ∈ ((floorValues H key kb nonce noise masked).drop 2).take n,
      0 ≤ v ∧ v ≤ 0x10FFFF) :
    (((wordValues H key kb nonce noise masked).drop 2).take n).map Int.ofNat =
      ((floorValues H key kb nonce noise masked).drop 2).take n := by
  apply List.ext_getElem?
  intro i
  rw [List.getElem?_map]
  by_cases hi : i < n
  · have hmem : ∀ v, (floorValues H key kb nonce noise masked)[2 + i]? = some v →
        v ∈ ((floorValues H key kb nonce noise masked).drop 2).take n := by
      intro v hv
      apply List.mem_of_getElem? (i := i)
      rw [List.getElem?_take_of_lt hi, List.getElem?_drop, hv]
    rw [List.getElem?_take_of_lt hi, List.getElem?_take_of_lt hi, List.getElem?_drop,
      List.getElem?_drop]
    rw [floorValues, List.getElem?_mapIdx] at hmem ⊢
    rw [wordValues, List.getElem?_mapIdx]
    cases ht : (realTokens H kb nonce noise masked)[2 + i]? with
    | none => rfl
    | some t =>
        rw [ht] at hmem
        obtain ⟨hnonneg, hle⟩ := hcps _ (hmem _ rfl)
        rw [Option.map_some, Option.map_some, Option.map_some, Option.some.injEq]
        exact natCast_wordValue hkey (lt_of_mem_realTokens (List.mem_of_getElem? ht)) hnonneg
          (by omega)
  · rw [List.getElem?_take_eq_none (by omega), List.getElem?_take_eq_none (by omega)]
    rfl

/-- The code points Python returns are those the caller of C receives exactly when the readings are
the same. -/
theorem reading_eq_iff (hkey : KeyValid key) {n m : Nat}
    (hn : floorLength (floorValues H key kb nonce noise masked) = some n)
    (hm : wordLength (wordValues H key kb nonce noise masked) = some m) :
    (((floorValues H key kb nonce noise masked).drop 2).take n).map Int.toNat =
        (C.cString ((((wordValues H key kb nonce noise masked).drop 2).take m).map C.lowByte ++
          [0])).map UInt8.toNat ↔
      (∀ v ∈ ((floorValues H key kb nonce noise masked).drop 2).take n, 1 ≤ v ∧ v ≤ 0xFF) ∧ n ≤ m ∧
        (n < m → ∀ w, ((wordValues H key kb nonce noise masked).drop 2)[n]? = some w →
          w % 256 = 0) := by
  obtain ⟨hi, lo, rest, hvalues, -, -, hfits, hcount, hcps⟩ := floorLength_eq_some_iff.mp hn
  obtain ⟨hi', lo', rest', hwords, -, hle⟩ := wordLength_eq_some_iff.mp hm
  have hlength : rest'.length = rest.length := by
    have hboth : (wordValues H key kb nonce noise masked).length =
        (floorValues H key kb nonce noise masked).length := by
      rw [wordValues, floorValues, List.length_mapIdx, List.length_mapIdx]
    rw [hwords, hvalues] at hboth
    simpa using hboth
  have hwide : n ≤ rest'.length := by
    rw [hlength, hcount]
    exact sliceCount_le hfits
  have htake := map_take_wordValues (n := n) hkey (by rw [hvalues]; exact hcps)
  rw [← htake, List.map_map, show Int.toNat ∘ Int.ofNat = id from rfl, List.map_id,
    List.forall_mem_map, hwords, List.drop_succ_cons, List.drop_succ_cons, List.drop_zero, eq_comm,
    C.cString_map_lowByte_iff hwide hle]
  simp only [Int.ofNat_eq_natCast, Nat.one_le_cast, Nat.cast_le_ofNat]

/-- Where Python has a length and no token of the prefix is below its addend, C has the same. -/
theorem wordLength_of_floorLength (hkey : KeyValid key)
    (hfirst : ∀ v ∈ (floorValues H key kb nonce noise masked).take 2, 0 ≤ v) {n : Nat}
    (hn : floorLength (floorValues H key kb nonce noise masked) = some n) :
    wordLength (wordValues H key kb nonce noise masked) = some n := by
  obtain ⟨hi, lo, rest, hvalues, hhi, hlo, hfits, hcount, -⟩ := floorLength_eq_some_iff.mp hn
  rw [hvalues] at hfirst
  obtain ⟨hi, rfl⟩ := Int.eq_ofNat_of_zero_le (hfirst hi (by simp))
  obtain ⟨lo, rfl⟩ := Int.eq_ofNat_of_zero_le (hfirst lo (by simp))
  have hn : n = hi <<< 8 ||| lo := by
    rw [hcount, show Int.lor ((hi : Int) <<< 8) lo = (hi <<< 8 ||| lo : Nat) from rfl, sliceCount,
      if_pos (Int.natCast_nonneg _), Int.toNat_natCast]
  rw [floorValues] at hvalues
  rcases htokens : realTokens H kb nonce noise masked with _ | ⟨t₀, _ | ⟨t₁, tokens⟩⟩
  case nil => simp [htokens] at hvalues
  case cons.nil => exact absurd (congrArg List.length hvalues) (by simp [htokens])
  case cons.cons =>
    rw [htokens, List.mapIdx_cons, List.mapIdx_cons, List.cons.injEq, List.cons.injEq] at hvalues
    obtain ⟨h₀, h₁, hrest⟩ := hvalues
    have hmem : ∀ t ∈ t₀ :: t₁ :: tokens, t < 2 ^ 64 := fun t ht =>
      lt_of_mem_realTokens (htokens ▸ ht)
    have hw₀ := natCast_wordValue hkey (hmem t₀ (by simp)) (by rw [h₀]; omega) (by rw [h₀]; omega)
    have hw₁ := natCast_wordValue hkey (hmem t₁ (by simp)) (by rw [h₁]; omega) (by rw [h₁]; omega)
    rw [h₀, Int.natCast_inj] at hw₀
    rw [h₁, Int.natCast_inj] at hw₁
    rw [wordLength_eq_some_iff, wordValues, htokens, List.mapIdx_cons, List.mapIdx_cons]
    refine ⟨_, _, _, rfl, by rw [hw₀, hw₁, hn], ?_⟩
    have hlength : rest.length = tokens.length := by rw [← hrest, List.length_mapIdx]
    rw [List.length_mapIdx, ← hlength, hcount]
    exact sliceCount_le hfits

/-- With such a prefix the readings are the same when every message value is a non-zero byte. -/
theorem sameReading_iff (hkey : KeyValid key)
    (hfirst : ∀ v ∈ (floorValues H key kb nonce noise masked).take 2, 0 ≤ v) :
    SameReading (floorValues H key kb nonce noise masked) (wordValues H key kb nonce noise masked) ↔
      ∀ n, floorLength (floorValues H key kb nonce noise masked) = some n →
        ∀ v ∈ ((floorValues H key kb nonce noise masked).drop 2).take n, 1 ≤ v ∧ v ≤ 0xFF := by
  constructor
  · intro h n hn
    exact (h n n hn (wordLength_of_floorLength hkey hfirst hn)).1
  · intro h n m hn hm
    rw [wordLength_of_floorLength hkey hfirst hn, Option.some.injEq] at hm
    exact ⟨h n hn, Nat.le_of_eq hm, fun hlt => absurd hm (Nat.ne_of_lt hlt)⟩

/-! ## The three decoders -/

/-- The C decoder on the key of the other ports. -/
theorem napqesDecryptBytes_eq_ok_iff (hkey : KeyValid key)
    (h : AuthenticV7 H (Rust.keyBytes key) aad ciphertext nonce masked) {buffer : List UInt8} :
    C.napqesDecryptBytes H noise ciphertext (key.map UInt64.ofNat) aad = .ok buffer ↔
      ∃ m, wordLength (wordValues H key (Rust.keyBytes key) nonce noise masked) = some m ∧
        buffer = (((wordValues H key (Rust.keyBytes key) nonce noise masked).drop 2).take m).map
          C.lowByte ++ [0] := by
  have hprimes := C.primesNat_ofNat hkey
  rw [← hprimes] at hkey h
  have hiff := @C.napqesDecryptBytes_eq_ok_iff H noise (key.map UInt64.ofNat) aad hkey ciphertext
    nonce masked h buffer
  rwa [hprimes] at hiff

/-- A ciphertext is split in one way. -/
theorem AuthenticV7.eq_of {nonce' masked' : List UInt8}
    (h : AuthenticV7 H kb aad ciphertext nonce masked)
    (h' : AuthenticV7 H kb aad ciphertext nonce' masked') : nonce = nonce' ∧ masked = masked' := by
  have heq := h.split.symm.trans h'.split
  have hpayload := List.append_inj_left' heq
    ((FixedBytes.length_toList _).trans (FixedBytes.length_toList _).symm)
  exact List.append_inj hpayload (h.length_nonce.trans h'.length_nonce.symm)

/-- A ciphertext that Rust accepts has one reading exactly when its message consists of non-zero
bytes. -/
theorem sameReading_iff_of_rust (hkey : KeyValid key) {s : Str}
    (hs : Rust.decryptBytes H noise ciphertext key aad = .ok s) :
    (∀ nonce masked, AuthenticV7 H (Rust.keyBytes key) aad ciphertext nonce masked →
        SameReading (floorValues H key (Rust.keyBytes key) nonce noise masked)
          (wordValues H key (Rust.keyBytes key) nonce noise masked)) ↔
      ∀ c ∈ s.codepoints, 1 ≤ c ∧ c ≤ 0xFF := by
  obtain ⟨nonce, masked, n, hauth, hnonneg, hn, hread⟩ := Rust.reading_of_decryptBytes hkey hs
  have hfirst : ∀ v ∈ (floorValues H key (Rust.keyBytes key) nonce noise masked).take 2, 0 ≤ v :=
    fun v hv => hnonneg v (List.mem_of_mem_take hv)
  have hcps : (∀ c ∈ s.codepoints, 1 ≤ c ∧ c ≤ 0xFF) ↔
      ∀ v ∈ ((floorValues H key (Rust.keyBytes key) nonce noise masked).drop 2).take n,
        1 ≤ v ∧ v ≤ 0xFF := by
    rw [hread, List.forall_mem_map]
    refine forall₂_congr fun v hv => ?_
    have := hnonneg v (List.mem_of_mem_drop (List.mem_of_mem_take hv))
    omega
  rw [hcps]
  constructor
  · intro h
    exact (sameReading_iff hkey hfirst).mp (h nonce masked hauth) n hn
  · intro h nonce' masked' hauth'
    obtain ⟨rfl, rfl⟩ := hauth.eq_of hauth'
    apply (sameReading_iff hkey hfirst).mpr
    intro n' hn'
    rw [hn, Option.some.injEq] at hn'
    exact hn' ▸ h

/-- On what Rust accepts, C writes out the low bytes. -/
theorem napqesDecryptBytes_of_rust (hkey : KeyValid key) {s : Str}
    (hs : Rust.decryptBytes H noise ciphertext key aad = .ok s) :
    C.napqesDecryptBytes H noise ciphertext (key.map UInt64.ofNat) aad =
      .ok (s.codepoints.map C.lowByte ++ [0]) := by
  obtain ⟨nonce, masked, n, hauth, hnonneg, hn, hread⟩ := Rust.reading_of_decryptBytes hkey hs
  obtain ⟨hi, lo, rest, hvalues, -, -, -, -, hcps⟩ := floorLength_eq_some_iff.mp hn
  have htake := map_take_wordValues (n := n) hkey (by rw [hvalues]; exact hcps)
  have hm := wordLength_of_floorLength hkey
    (fun v hv => hnonneg v (List.mem_of_mem_take hv)) hn
  rw [napqesDecryptBytes_eq_ok_iff hkey hauth]
  refine ⟨n, hm, ?_⟩
  rw [hread, ← htake, List.map_map, List.map_map]
  rfl

/-- Any two decoders that succeed agree exactly when an authentic ciphertext has one reading. -/
theorem agreeV7_iff (H : Hmac) (noise : Rust.Noise) (mathSqrt : Nat → Nat) (key : List Nat)
    (hrust : Rust.validateKey key = .ok ⟨⟩) (hpy : Python.validateKey mathSqrt key = .ok ⟨⟩)
    (aad ciphertext : List UInt8) :
    AgreeV7 H noise mathSqrt key aad ciphertext ↔
      ∀ nonce masked, AuthenticV7 H (Rust.keyBytes key) aad ciphertext nonce masked →
        SameReading (floorValues H key (Rust.keyBytes key) nonce noise masked)
          (wordValues H key (Rust.keyBytes key) nonce noise masked) := by
  have hkey := (Rust.validateKey_iff key).mp hrust
  constructor
  · intro hagree nonce masked hauth n m hn hm
    apply (reading_eq_iff hkey hn hm).mp
    apply hagree.python_c
    · exact (Python.decryptBytes_eq_ok_iff hpy hkey hauth).mpr ⟨n, hn, rfl⟩
    · exact (napqesDecryptBytes_eq_ok_iff hkey hauth).mpr ⟨m, hm, rfl⟩
  · intro hsame
    refine ⟨fun s cps hs hcps => ?_, fun s buffer hs hbuffer => ?_,
      fun cps buffer hcps hbuffer => ?_⟩
    · obtain ⟨nonce, masked, n, hauth, -, hn, hread⟩ := Rust.reading_of_decryptBytes hkey hs
      obtain ⟨n', hn', rfl⟩ := (Python.decryptBytes_eq_ok_iff hpy hkey hauth).mp hcps
      rw [hn, Option.some.injEq] at hn'
      rw [hread, hn']
    · obtain ⟨nonce, masked, n, hauth, -, hn, hread⟩ := Rust.reading_of_decryptBytes hkey hs
      obtain ⟨m, hm, rfl⟩ := (napqesDecryptBytes_eq_ok_iff hkey hauth).mp hbuffer
      rw [hread]
      exact (reading_eq_iff hkey hn hm).mpr (hsame nonce masked hauth n m hn hm)
    · obtain ⟨nonce, masked, hnonce, haad, hwhole, hsplit⟩ :=
        Python.exists_append_of_decryptBytes hpy hkey hcps
      have hreach := C.reach_of_napqesDecryptBytes hnonce (FixedBytes.length_toList _)
        (hsplit ▸ hbuffer)
      have hauth : AuthenticV7 H (Rust.keyBytes key) aad ciphertext nonce masked :=
        ⟨hsplit, hnonce, haad, hwhole, hreach⟩
      obtain ⟨n, hn, rfl⟩ := (Python.decryptBytes_eq_ok_iff hpy hkey hauth).mp hcps
      obtain ⟨m, hm, rfl⟩ := (napqesDecryptBytes_eq_ok_iff hkey hauth).mp hbuffer
      exact (reading_eq_iff hkey hn hm).mpr (hsame nonce masked hauth n m hn hm)

/-- Rust encrypts every short string. -/
theorem exists_decryptBytes_eq {s : Str} (hlen : s.length ≤ Rust.maxPlaintextCodepoints) :
    ∃ ciphertext, Rust.decryptBytes zeroHmac (fun _ _ _ => false) ciphertext [1000003] [] =
      .ok s := by
  have husable := Rust.KeyUsable.of_keyValid keyValid_1000003
  obtain ⟨c, hc⟩ := @Rust.exists_sealV7 zeroHmac (fun _ _ _ => false) [1000003] husable s.codepoints
    s.isScalar_of_mem_codepoints (by rw [Str.codepoints, List.length_map]; exact hlen)
    (.ofList 16 []) [] (by decide) (fun pos => ⟨0, by decide, rfl⟩)
  refine ⟨c, @Rust.decryptBytes_of_encryptBytes zeroHmac (fun _ _ _ => false) [1000003] s [] c
    (.ok (.ofList 16 [])) ?_⟩
  rw [Rust.encryptBytes, Rust.validateKey_1000003, ok_bind,
    (Rust.checkV7AadLen_eq_ok_iff _).mpr (by decide), ok_bind, if_neg (Nat.not_lt.mpr hlen),
    ok_bind]
  exact hc

/-- The decoders agree on a message of two non-zero bytes. -/
theorem agreeV7_two_chars :
    ∃ ciphertext, Rust.decryptBytes zeroHmac (fun _ _ _ => false) ciphertext [1000003] [] =
        .ok ['h', 'é'] ∧
      AgreeV7 zeroHmac (fun _ _ _ => false) Nat.sqrt [1000003] [] ciphertext := by
  obtain ⟨ciphertext, hs⟩ := @exists_decryptBytes_eq ['h', 'é'] (by decide)
  refine ⟨ciphertext, hs, (agreeV7_iff zeroHmac (fun _ _ _ => false) Nat.sqrt [1000003]
    Rust.validateKey_1000003 Python.validateKey_1000003 [] ciphertext).mpr ?_⟩
  exact (sameReading_iff_of_rust keyValid_1000003 hs).mpr (by decide)

/-- For the message `€`, `U+20AC`, C returns the byte `AC`. -/
theorem not_agreeV7_euro :
    ∃ ciphertext, Rust.decryptBytes zeroHmac (fun _ _ _ => false) ciphertext [1000003] [] =
        .ok ['€'] ∧
      C.napqesDecryptBytes zeroHmac (fun _ _ _ => false) ciphertext [1000003] [] = .ok [0xAC, 0] ∧
      ¬ AgreeV7 zeroHmac (fun _ _ _ => false) Nat.sqrt [1000003] [] ciphertext := by
  obtain ⟨ciphertext, hs⟩ := @exists_decryptBytes_eq ['€'] (by decide)
  have hc : C.napqesDecryptBytes zeroHmac (fun _ _ _ => false) ciphertext [1000003] [] =
      .ok [0xAC, 0] := napqesDecryptBytes_of_rust keyValid_1000003 hs
  exact ⟨ciphertext, hs, hc, fun h => absurd (h.rust_c _ _ hs hc) (by decide)⟩

end Napqes
