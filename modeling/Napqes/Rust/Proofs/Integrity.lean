import Napqes.Rust.Integrity
import Napqes.Rust.Proofs.KeyStore
import Napqes.Rust.Proofs.Text

/-!
# What the software integrity test accepts

`decode_hex` slices the reference by bytes, two at a time. A pair that cannot be read is an error,
unless its slice ends inside a character: then the test panics. A sidecar that `napqes_integrity`
has written is never such a reference.
-/

namespace Napqes.Rust

/-! ## Slices of a string -/

theorem length_asBytes_cons (c : Char) (s : Str) :
    (Str.asBytes (c :: s)).length = c.utf8Size + s.asBytes.length := by
  rw [Str.asBytes, List.flatMap_cons, List.length_append, String.length_utf8EncodeChar]
  rfl

/-- What is split off further on is split off the rest. -/
theorem splitBytes_add {s front rest : Str} {m : Nat} (h : splitBytes s m = some (front, rest))
    (n : Nat) :
    splitBytes s (m + n) = (splitBytes rest n).map fun p => (front ++ p.1, p.2) := by
  induction s generalizing m front with
  | nil =>
      cases m with
      | zero =>
          obtain ⟨rfl, rfl⟩ := Prod.mk.inj (Option.some.inj h)
          rw [Nat.zero_add]
          exact Option.map_id'.symm
      | succ m => cases h
  | cons c s ih =>
      cases m with
      | zero =>
          obtain ⟨rfl, rfl⟩ := Prod.mk.inj (Option.some.inj h)
          rw [Nat.zero_add]
          exact Option.map_id'.symm
      | succ m =>
          rw [splitBytes] at h
          by_cases hsize : c.utf8Size ≤ m + 1
          · rw [if_pos hsize] at h
            obtain ⟨⟨front', rest'⟩, hsplit, heq⟩ := Option.map_eq_some_iff.mp h
            obtain ⟨rfl, rfl⟩ := Prod.mk.inj heq
            rw [Nat.succ_add, splitBytes, if_pos (by omega),
              show m + n + 1 - c.utf8Size = m + 1 - c.utf8Size + n by omega, ih hsplit,
              Option.map_map]
            rfl
          · rw [if_neg hsize] at h
            cases h

theorem sliceStr_add {ε : Type} {s front rest : Str} {m : Nat}
    (h : splitBytes s m = some (front, rest)) (start stop : Nat) :
    (sliceStr s (m + start) (m + stop) : RustM ε Str) = sliceStr rest start stop := by
  rw [sliceStr, sliceStr, splitBytes_add h, Nat.add_sub_add_left]
  cases splitBytes rest start <;> rfl

theorem splitBytes_two_of_ascii {c d : Char} (hc : c.utf8Size = 1) (hd : d.utf8Size = 1)
    (rest : Str) : splitBytes (c :: d :: rest) 2 = some ([c, d], rest) := by
  rw [splitBytes, hc, if_pos (by omega), splitBytes, hd, if_pos (by omega), splitBytes]
  rfl

theorem splitBytes_two_of_wide {c : Char} (hc : 2 < c.utf8Size) (s : Str) :
    splitBytes (c :: s) 2 = none := by
  rw [splitBytes, if_neg (by omega)]

theorem splitBytes_two_of_pair {c : Char} (hc : c.utf8Size = 2) (s : Str) :
    splitBytes (c :: s) 2 = some ([c], s) := by
  rw [splitBytes, hc, if_pos (by omega), splitBytes]
  rfl

theorem splitBytes_two_of_cut {c d : Char} (hc : c.utf8Size = 1) (hd : 1 < d.utf8Size)
    (rest : Str) : splitBytes (c :: d :: rest) 2 = none := by
  rw [splitBytes, hc, if_pos (by omega), splitBytes, if_neg (by omega)]
  rfl

/-! ## Pairs of digits -/

theorem hexByteAt_zero_of_none {s : Str} (h : splitBytes s 2 = none) :
    hexByteAt s 0 = panics "end byte index is not a char boundary" := by
  rw [hexByteAt, sliceStr, splitBytes.eq_1]
  dsimp only
  rw [Nat.mul_zero, Nat.zero_add, Nat.sub_zero, h]
  rfl

theorem hexByteAt_zero {s front rest : Str} (h : splitBytes s 2 = some (front, rest)) :
    hexByteAt s 0 =
      match fromStrRadix 16 256 front with
      | some b => .ok (UInt8.ofNat b)
      | none => err (.internalError "invalid hex digit") := by
  rw [hexByteAt, sliceStr, splitBytes.eq_1]
  dsimp only
  rw [Nat.mul_zero, Nat.zero_add, Nat.sub_zero, h]
  rfl

theorem hexByteAt_succ {s front rest : Str} (h : splitBytes s 2 = some (front, rest)) (i : Nat) :
    hexByteAt s (i + 1) = hexByteAt rest i := by
  rw [hexByteAt, hexByteAt, show 2 * (i + 1) = 2 + 2 * i by omega, Nat.add_assoc, sliceStr_add h]

theorem mapM_hexByteAt_succ {s front rest : Str} (h : splitBytes s 2 = some (front, rest))
    (n : Nat) :
    (List.range (n + 1)).mapM (hexByteAt s) = (do
      let b ← hexByteAt s 0
      let bs ← (List.range n).mapM (hexByteAt rest)
      return b :: bs) := by
  have hshift : (fun i => hexByteAt s (i + 1)) = hexByteAt rest := funext (hexByteAt_succ h)
  rw [List.range_succ_eq_map, List.mapM_cons, List.mapM_map, ← hshift]
  rfl

/-- The slice of the first pair that cannot be read ends inside a character. -/
def CutsChar : Str → Prop
  | [] => False
  | [c] => 2 < c.utf8Size
  | c :: d :: rest =>
      2 < c.utf8Size ∨ c.utf8Size = 1 ∧ 1 < d.utf8Size ∨ PairReadable c d ∧ CutsChar rest

theorem utf8Size_eq_one_of_hexDigit {c : Char} (h : HexDigit c) : c.utf8Size = 1 :=
  Char.utf8Size_eq_one_iff.mpr (Nat.le_of_lt_succ h.ascii)

theorem PairReadable.utf8Size_eq_one {c d : Char} (h : PairReadable c d) :
    c.utf8Size = 1 ∧ d.utf8Size = 1 := by
  refine ⟨?_, utf8Size_eq_one_of_hexDigit h.2⟩
  rcases h.1 with rfl | hc
  · rfl
  · exact utf8Size_eq_one_of_hexDigit hc

theorem not_pairsReadable_of_wide {c : Char} {s : Str} (h : c.utf8Size ≠ 1) :
    ¬ PairsReadable (c :: s) := by
  intro hread
  cases s with
  | nil => exact hread
  | cons d s => exact h hread.1.utf8Size_eq_one.1

/-- The first slice of two bytes is a readable pair, or ends inside a character, or is neither. -/
theorem firstPair_cases {s : Str} (hne : s ≠ []) (heven : s.asBytes.length % 2 = 0) :
    (∃ c d rest, s = c :: d :: rest ∧ PairReadable c d ∧
      splitBytes s 2 = some ([c, d], rest)) ∨
    (¬ PairsReadable s ∧ CutsChar s ∧ splitBytes s 2 = none) ∨
    ¬ PairsReadable s ∧ ¬ CutsChar s ∧
      ∃ front rest, splitBytes s 2 = some (front, rest) ∧ fromStrRadix 16 256 front = none := by
  obtain ⟨c, s, rfl⟩ := List.exists_cons_of_ne_nil hne
  have hpos := c.utf8Size_pos
  rw [length_asBytes_cons] at heven
  rcases Nat.lt_or_ge 2 c.utf8Size with hwide | hnarrow
  · refine Or.inr (Or.inl ⟨not_pairsReadable_of_wide (by omega), ?_,
      splitBytes_two_of_wide hwide s⟩)
    cases s with
    | nil => exact hwide
    | cons d s => exact Or.inl hwide
  by_cases htwo : c.utf8Size = 2
  · have hdigit : ¬ HexDigit c := fun h => by
      have := utf8Size_eq_one_of_hexDigit h
      omega
    have hplus : c ≠ '+' := by
      rintro rfl
      exact absurd htwo (by decide)
    refine Or.inr (Or.inr ⟨not_pairsReadable_of_wide (by omega), ?_, _, _,
      splitBytes_two_of_pair htwo s, ?_⟩)
    · cases s with
      | nil => exact Nat.not_lt.mpr hnarrow
      | cons d s =>
          rintro (hwide | ⟨hone, -⟩ | ⟨hpair, -⟩)
          · omega
          · omega
          · have := hpair.utf8Size_eq_one.1
            omega
    · rw [fromStrRadix_of_ne_plus hplus, fromDigits_cons_of_not_hexDigit hdigit]
  have hone : c.utf8Size = 1 := by omega
  cases s with
  | nil =>
      rw [hone] at heven
      exact absurd heven (by decide)
  | cons d rest =>
      have hdpos := d.utf8Size_pos
      by_cases hcut : 1 < d.utf8Size
      · refine Or.inr (Or.inl ⟨fun h => ?_, Or.inr (Or.inl ⟨hone, hcut⟩),
          splitBytes_two_of_cut hone hcut rest⟩)
        have := h.1.utf8Size_eq_one.2
        omega
      have hsplit := splitBytes_two_of_ascii hone (show d.utf8Size = 1 by omega) rest
      by_cases hpair : PairReadable c d
      · exact Or.inl ⟨c, d, rest, rfl, hpair, hsplit⟩
      · refine Or.inr (Or.inr ⟨fun h => hpair h.1, ?_, _, _, hsplit,
          fromStrRadix_pair_of_not hpair⟩)
        rintro (hwide | ⟨-, hcut'⟩ | ⟨hpair', -⟩)
        · omega
        · omega
        · exact hpair hpair'

/-- The three ends of the loop of `decode_hex`: the bytes, a panic, an error. -/
theorem mapM_hexByteAt_cases {n : Nat} {s : Str} (hlen : s.asBytes.length = 2 * n) :
    PairsReadable s ∧ (List.range n).mapM (hexByteAt s) = .ok (pairBytes s) ∨
    ¬ PairsReadable s ∧ CutsChar s ∧
      (List.range n).mapM (hexByteAt s) = panics "end byte index is not a char boundary" ∨
    ¬ PairsReadable s ∧ ¬ CutsChar s ∧
      (List.range n).mapM (hexByteAt s) = err (.internalError "invalid hex digit") := by
  induction n generalizing s with
  | zero =>
      cases s with
      | nil => exact Or.inl ⟨trivial, rfl⟩
      | cons c s =>
          have hpos := c.utf8Size_pos
          rw [length_asBytes_cons] at hlen
          omega
  | succ n ih =>
      have hne : s ≠ [] := by
        rintro rfl
        exact absurd hlen (Nat.succ_ne_zero _).symm
      rcases firstPair_cases hne (by omega) with ⟨c, d, rest, rfl, hpair, hsplit⟩ |
        ⟨hread, hcuts, hsplit⟩ | ⟨hread, hcuts, front, rest, hsplit, hnone⟩
      · have hsizes := hpair.utf8Size_eq_one
        rw [length_asBytes_cons, length_asBytes_cons, hsizes.1, hsizes.2] at hlen
        rw [mapM_hexByteAt_succ hsplit, hexByteAt_zero hsplit, fromStrRadix_pair_of hpair]
        dsimp only
        rw [ok_bind]
        rcases ih (s := rest) (by omega) with ⟨hread, hok⟩ | ⟨hread, hcuts, hpanic⟩ |
          ⟨hread, hcuts, herr⟩
        · rw [hok]
          exact Or.inl ⟨⟨hpair, hread⟩, rfl⟩
        · rw [hpanic]
          exact Or.inr (Or.inl ⟨fun h => hread h.2, Or.inr (Or.inr ⟨hpair, hcuts⟩), rfl⟩)
        · rw [herr]
          refine Or.inr (Or.inr ⟨fun h => hread h.2, ?_, rfl⟩)
          rintro (hwide | ⟨-, hcut⟩ | ⟨-, hcuts'⟩)
          · omega
          · omega
          · exact hcuts hcuts'
      · rw [List.range_succ_eq_map, List.mapM_cons, hexByteAt_zero_of_none hsplit]
        exact Or.inr (Or.inl ⟨hread, hcuts, rfl⟩)
      · rw [mapM_hexByteAt_succ hsplit, hexByteAt_zero hsplit, hnone]
        exact Or.inr (Or.inr ⟨hread, hcuts, rfl⟩)

/-! ## The reference -/

/-- What is left of the text of a sidecar when the blanks are gone. -/
def digitsOf (text : Str) : Str := withoutBlanks (trim text)

/-- The references that INT-2 takes for the bytes of `tag`. -/
def Denotes (text : Str) (tag : List UInt8) : Prop :=
  PairsReadable (digitsOf text) ∧ pairBytes (digitsOf text) = tag

/-- The references that make it panic. -/
def CutReference (text : Str) : Prop :=
  (digitsOf text).asBytes.length % 2 = 0 ∧ CutsChar (digitsOf text)

theorem length_asBytes_of_pairsReadable {s : Str} (h : PairsReadable s) :
    s.asBytes.length % 2 = 0 := by
  induction s using PairsReadable.induct with
  | case1 => rfl
  | case2 a b rest ih =>
      have hsizes := h.1.utf8Size_eq_one
      have hrest := ih h.2
      rw [length_asBytes_cons, length_asBytes_cons, hsizes.1, hsizes.2]
      omega
  | case3 s hnil hcons => exact absurd h (by rw [PairsReadable.eq_3 _ hnil hcons]; exact id)

theorem not_cutsChar_of_pairsReadable {s : Str} (h : PairsReadable s) : ¬ CutsChar s := by
  induction s using PairsReadable.induct with
  | case1 => exact id
  | case2 a b rest ih =>
      have hsizes := h.1.utf8Size_eq_one
      rintro (hwide | ⟨-, hcut⟩ | ⟨-, hcuts⟩)
      · omega
      · omega
      · exact ih h.2 hcuts
  | case3 s hnil hcons => exact absurd h (by rw [PairsReadable.eq_3 _ hnil hcons]; exact id)

theorem decodeHex_trim (text : Str) :
    decodeHex (trim text) =
      if (digitsOf text).asBytes.length % 2 ≠ 0 then
        err (.internalError "hex string has odd length")
      else (List.range ((digitsOf text).asBytes.length / 2)).mapM (hexByteAt (digitsOf text)) := rfl

theorem decodeHex_trim_cases (text : Str) :
    PairsReadable (digitsOf text) ∧ decodeHex (trim text) = .ok (pairBytes (digitsOf text)) ∨
    ¬ PairsReadable (digitsOf text) ∧ CutReference text ∧
      decodeHex (trim text) = panics "end byte index is not a char boundary" ∨
    ¬ PairsReadable (digitsOf text) ∧ ¬ CutReference text ∧ ∃ e, decodeHex (trim text) = err e := by
  rw [decodeHex_trim]
  by_cases heven : (digitsOf text).asBytes.length % 2 = 0
  · rw [if_neg (not_not.mpr heven)]
    rcases mapM_hexByteAt_cases (n := (digitsOf text).asBytes.length / 2) (s := digitsOf text)
      (by omega) with ⟨hread, hok⟩ | ⟨hread, hcuts, hpanic⟩ | ⟨hread, hcuts, herr⟩
    · exact Or.inl ⟨hread, hok⟩
    · exact Or.inr (Or.inl ⟨hread, ⟨heven, hcuts⟩, hpanic⟩)
    · exact Or.inr (Or.inr ⟨hread, fun h => hcuts h.2, _, herr⟩)
  · rw [if_pos heven]
    exact Or.inr (Or.inr ⟨fun h => heven (length_asBytes_of_pairsReadable h),
      fun h => heven h.1, _, rfl⟩)

/-! ## INT-2 -/

section
variable {H : Hmac} {fs : FileSystem} {module : Path}

theorem fromUtf8_eq_some_iff {bytes : List UInt8} {s : Str} :
    fromUtf8 bytes = some s ↔ bytes = s.asBytes := by
  constructor
  · intro h
    obtain ⟨chars, hchars, rfl⟩ := Option.map_eq_some_iff.mp h
    obtain ⟨l, hl⟩ := ByteArray.isSome_utf8Decode?_iff.mp (Option.isSome_of_eq_some hchars)
    rw [hl, List.utf8Decode?_utf8Encode] at hchars
    obtain rfl := Option.some.inj hchars
    exact List.toByteArray_inj.mp hl
  · rintro rfl
    have hdecode : s.asBytes.toByteArray.utf8Decode? = some s.toArray :=
      List.utf8Decode?_utf8Encode (l := s)
    rw [fromUtf8, hdecode]
    rfl

theorem readToString_eq_ok_iff {path : Path} {text : Str} :
    readToString fs path = .ok text ↔ fs path = .ok text.asBytes := by
  rw [readToString]
  cases fs path with
  | error e => exact iff_of_false (fun h => by cases h) fun h => by cases h
  | ok bytes =>
      dsimp only
      rw [Except.ok.injEq, ← fromUtf8_eq_some_iff]
      cases fromUtf8 bytes with
      | none => exact iff_of_false (fun h => by cases h) fun h => by cases h
      | some s => rw [Except.ok.injEq, Option.some.injEq]

/-- A file that is there is read as a string or with an error of another kind. -/
theorem readToString_cases (fs : FileSystem) (path : Path) :
    (∃ text, fs path = .ok text.asBytes ∧ readToString fs path = .ok text) ∨
    fs path = .error .notFound ∧ readToString fs path = .error .notFound ∨
    (∀ text, fs path ≠ .ok (Str.asBytes text)) ∧ fs path ≠ .error .notFound ∧
      readToString fs path = .error .other := by
  cases hread : readToString fs path with
  | ok text => exact Or.inl ⟨text, readToString_eq_ok_iff.mp hread, rfl⟩
  | error e =>
      have hunread : ∀ text, fs path ≠ .ok (Str.asBytes text) := by
        intro text h
        rw [readToString_eq_ok_iff.mpr h] at hread
        cases hread
      rw [readToString] at hread
      cases hfile : fs path with
      | error e' =>
          rw [hfile] at hread
          obtain rfl := Except.error.inj hread
          cases e' with
          | notFound => exact Or.inr (Or.inl ⟨rfl, rfl⟩)
          | other => exact Or.inr (Or.inr ⟨fun _ h => (by cases h), fun h => (by cases h), rfl⟩)
      | ok bytes =>
          rw [hfile] at hread hunread
          dsimp only at hread
          split at hread
          · cases hread
          · obtain rfl := Except.error.inj hread
            exact Or.inr (Or.inr ⟨hunread, fun h => (by cases h), rfl⟩)

theorem verifyModuleIntegrity_of_text (H : Hmac) {text : Str}
    (h : fs (integritySidecarPath module) = .ok text.asBytes) :
    (¬ CutReference text ∧ (∃ image, fs module = .ok image ∧
      Denotes text (integrityTag H image).toList) ∧
      verifyModuleIntegrity H fs module = .ok true) ∨
    (CutReference text ∧ ¬ PairsReadable (digitsOf text) ∧
      ∃ msg, verifyModuleIntegrity H fs module = panics msg) ∨
    ¬ CutReference text ∧
      (∀ image, fs module = .ok image → ¬ Denotes text (integrityTag H image).toList) ∧
      verifyModuleIntegrity H fs module = err .integrityCheckFailed := by
  rw [verifyModuleIntegrity, readToString_eq_ok_iff.mpr h]
  dsimp only
  rcases decodeHex_trim_cases text with ⟨hread, hok⟩ | ⟨hread, hcut, hpanic⟩ |
    ⟨hread, hcut, e, herr⟩
  · have hnocut : ¬ CutReference text := fun hcut => not_cutsChar_of_pairsReadable hread hcut.2
    rw [hok, mapErr_ok, ok_bind]
    cases himage : fs module with
    | error e => exact Or.inr (Or.inr ⟨hnocut, fun image h => (by cases h), rfl⟩)
    | ok image =>
        dsimp only
        by_cases htag : pairBytes (digitsOf text) = (integrityTag H image).toList
        · have hlen : (pairBytes (digitsOf text)).length = 32 := by
            rw [htag, FixedBytes.length_toList]
          rw [if_pos ⟨hlen, by simp [ctEqBytes, htag]⟩]
          exact Or.inl ⟨hnocut, ⟨image, rfl, hread, htag⟩, rfl⟩
        · rw [if_neg fun h => htag (by simpa [ctEqBytes] using h.2)]
          refine Or.inr (Or.inr ⟨hnocut, ?_, rfl⟩)
          rintro image' himage' hdenotes
          obtain rfl := Except.ok.inj himage'
          exact htag hdenotes.2
  · rw [hpanic]
    exact Or.inr (Or.inl ⟨hcut, hread, _, rfl⟩)
  · rw [herr]
    exact Or.inr (Or.inr ⟨hcut, fun image _ hdenotes => hread hdenotes.1, rfl⟩)

/-- INT-2 passes when the sidecar denotes the tag of the image. Without a sidecar it is skipped, and
with any other one it fails, or panics while it reads the digits. -/
theorem verifyModuleIntegrity_spec (H : Hmac) (fs : FileSystem) (module : Path) :
    (verifyModuleIntegrity H fs module = .ok true ↔
      ∃ text image, fs (integritySidecarPath module) = .ok (Str.asBytes text) ∧
        fs module = .ok image ∧ Denotes text (integrityTag H image).toList) ∧
    (verifyModuleIntegrity H fs module = .ok false ↔
      fs (integritySidecarPath module) = .error .notFound) ∧
    ((∃ msg, verifyModuleIntegrity H fs module = panics msg) ↔
      ∃ text, fs (integritySidecarPath module) = .ok (Str.asBytes text) ∧ CutReference text) ∧
    (∀ e, verifyModuleIntegrity H fs module = err e → e = .integrityCheckFailed) := by
  rcases readToString_cases fs (integritySidecarPath module) with
    ⟨text, hfile, -⟩ | ⟨hfile, hread⟩ | ⟨hunread, hfound, hread⟩
  · have hunique : ∀ {text'}, fs (integritySidecarPath module) = .ok (Str.asBytes text') →
        text' = text := fun h => asBytes_inj (Except.ok.inj (h.symm.trans hfile))
    have hfound : fs (integritySidecarPath module) ≠ .error .notFound := by
      rw [hfile]
      exact fun h => by cases h
    rcases verifyModuleIntegrity_of_text H hfile with ⟨hcut, ⟨image, himage, hdenotes⟩, hok⟩ |
      ⟨hcut, hread, msg, hpanic⟩ | ⟨hcut, hdenotes, herr⟩
    · rw [hok]
      refine ⟨iff_of_true rfl ⟨text, image, hfile, himage, hdenotes⟩,
        iff_of_false (fun h => by cases h) hfound,
        iff_of_false (fun ⟨_, h⟩ => by cases h) fun ⟨text', h, hcut'⟩ => ?_, fun _ h => by cases h⟩
      exact hcut (hunique h ▸ hcut')
    · rw [hpanic]
      refine ⟨iff_of_false (fun h => by cases h) fun ⟨text', _, h, _, hdenotes⟩ => ?_,
        iff_of_false (fun h => by cases h) hfound, iff_of_true ⟨msg, rfl⟩ ⟨text, hfile, hcut⟩,
        fun _ h => by cases h⟩
      exact hread (hunique h ▸ hdenotes.1)
    · rw [herr]
      refine ⟨iff_of_false (fun h => by cases h) fun ⟨text', image, h, himage, hdenotes'⟩ => ?_,
        iff_of_false (fun h => by cases h) hfound,
        iff_of_false (fun ⟨_, h⟩ => by cases h) fun ⟨text', h, hcut'⟩ => ?_,
        fun _ h => (Fault.err.inj (Except.error.inj h)).symm⟩
      · exact hdenotes image himage (hunique h ▸ hdenotes')
      · exact hcut (hunique h ▸ hcut')
  · have hskip : verifyModuleIntegrity H fs module = .ok false := by
      rw [verifyModuleIntegrity, hread]
    rw [hskip, hfile]
    exact ⟨iff_of_false (fun h => by cases h) fun ⟨_, _, h, _⟩ => (by cases h),
      iff_of_true rfl rfl, iff_of_false (fun ⟨_, h⟩ => by cases h) fun ⟨_, h, _⟩ => (by cases h),
      fun _ h => by cases h⟩
  · have herr : verifyModuleIntegrity H fs module = err .integrityCheckFailed := by
      rw [verifyModuleIntegrity, hread]
    rw [herr]
    exact ⟨iff_of_false (fun h => by cases h) fun ⟨text, _, h, _⟩ => hunread text h,
      iff_of_false (fun h => by cases h) hfound,
      iff_of_false (fun ⟨_, h⟩ => by cases h) fun ⟨text, h, _⟩ => hunread text h,
      fun _ h => (Fault.err.inj (Except.error.inj h)).symm⟩


/-- The sidecar of `exe` denotes the tag of its image. -/
def Certified (H : Hmac) (fs : FileSystem) (exe : Path) : Prop :=
  ∃ text image, fs (integritySidecarPath exe) = .ok (Str.asBytes text) ∧
    fs exe = .ok image ∧ Denotes text (integrityTag H image).toList

/-- The power-on test lets the module start when its executable is certified, or when it has no
sidecar and the build does not ask for one. -/
theorem softwareIntegrityCheck_spec (H : Hmac) (fipsIntegrity : Bool) (fs : FileSystem)
    (currentExe : Option Path) :
    (softwareIntegrityCheck H fipsIntegrity fs currentExe = .ok ⟨⟩ ↔
      ∃ exe, currentExe = some exe ∧
        (Certified H fs exe ∨
          fipsIntegrity = false ∧ fs (integritySidecarPath exe) = .error .notFound)) ∧
    ((∃ msg, softwareIntegrityCheck H fipsIntegrity fs currentExe = panics msg) ↔
      ∃ exe, currentExe = some exe ∧ ∃ text,
        fs (integritySidecarPath exe) = .ok (Str.asBytes text) ∧ CutReference text) ∧
    (∀ e, softwareIntegrityCheck H fipsIntegrity fs currentExe = err e →
      e = .integrityCheckFailed) := by
  cases currentExe with
  | none =>
      refine ⟨iff_of_false (fun h => by cases h) fun ⟨_, h, _⟩ => (by cases h),
        iff_of_false (fun ⟨_, h⟩ => by cases h) fun ⟨_, h, _⟩ => (by cases h), fun e h => ?_⟩
      exact (Fault.err.inj (Except.error.inj h)).symm
  | some exe =>
      obtain ⟨hpass, hskip, hpanic, herr⟩ := verifyModuleIntegrity_spec H fs exe
      have hexe : ∀ {P : Path → Prop}, (∃ exe', some exe = some exe' ∧ P exe') ↔ P exe := by simp
      rw [hexe, hexe, Certified, ← hpass, ← hskip, ← hpanic, softwareIntegrityCheck]
      cases hverify : verifyModuleIntegrity H fs exe with
      | error fault =>
          have hfail : ∀ b, (Except.error fault : RustM IntegrityError Bool) ≠ .ok b :=
            fun _ h => by cases h
          cases fault with
          | panic msg =>
              exact ⟨iff_of_false (fun h => by cases h) fun h => h.elim (hfail _) (hfail _ ·.2),
                iff_of_true ⟨msg, rfl⟩ ⟨msg, rfl⟩, fun _ h => by cases h⟩
          | err e =>
              refine ⟨iff_of_false (fun h => by cases h) fun h => h.elim (hfail _) (hfail _ ·.2),
                iff_of_false (fun ⟨_, h⟩ => by cases h) fun ⟨_, h⟩ => (by cases h), fun e' h => ?_⟩
              obtain rfl := Fault.err.inj (Except.error.inj h)
              exact herr e hverify
      | ok certified =>
          rw [ok_bind]
          cases certified with
          | true =>
              exact ⟨iff_of_true rfl (Or.inl rfl),
                iff_of_false (fun ⟨_, h⟩ => by cases h) fun ⟨_, h⟩ => (by cases h),
                fun _ h => by cases h⟩
          | false =>
              cases fipsIntegrity with
              | true =>
                  refine ⟨iff_of_false (fun h => by cases h) ?_,
                    iff_of_false (fun ⟨_, h⟩ => by cases h) fun ⟨_, h⟩ => (by cases h),
                    fun e h => (Fault.err.inj (Except.error.inj h)).symm⟩
                  rintro (h | ⟨h, -⟩) <;> cases h
              | false =>
                  exact ⟨iff_of_true rfl (Or.inr ⟨rfl, rfl⟩),
                    iff_of_false (fun ⟨_, h⟩ => by cases h) fun ⟨_, h⟩ => (by cases h),
                    fun _ h => by cases h⟩

end

/-! ## What `napqes_integrity` has written -/

theorem toDigit_digitChar : ∀ n < 16, toDigit 16 (Nat.digitChar n) = some n := by decide

theorem hexDigit_digitChar {n : Nat} (h : n < 16) : HexDigit (Nat.digitChar n) :=
  isSome_toDigit_iff.mp (by rw [toDigit_digitChar n h]; rfl)

theorem hexVal_digitChar {n : Nat} (h : n < 16) : hexVal (Nat.digitChar n) = n := by
  rw [hexVal, toDigit_digitChar n h]
  rfl

theorem hexText_cons (b : UInt8) (bytes : List UInt8) :
    hexText (b :: bytes) =
      Nat.digitChar (b.toNat / 16) :: Nat.digitChar (b.toNat % 16) :: hexText bytes := by
  rw [hexText, List.flatMap_cons, hex02, String.toList_ofList]
  rfl

theorem div_sixteen_lt (b : UInt8) : b.toNat / 16 < 16 := by
  have := b.toNat_lt
  omega

theorem pairsReadable_hexText (bytes : List UInt8) : PairsReadable (hexText bytes) := by
  induction bytes with
  | nil => trivial
  | cons b bytes ih =>
      rw [hexText_cons]
      exact ⟨⟨Or.inr (hexDigit_digitChar (div_sixteen_lt b)),
        hexDigit_digitChar (Nat.mod_lt _ (by omega))⟩, ih⟩

theorem pairBytes_hexText (bytes : List UInt8) : pairBytes (hexText bytes) = bytes := by
  induction bytes with
  | nil => rfl
  | cons b bytes ih =>
      have hdigit := hexDigit_digitChar (div_sixteen_lt b)
      have hplus : Nat.digitChar (b.toNat / 16) ≠ '+' := fun h => not_hexDigit_plus (h ▸ hdigit)
      rw [hexText_cons, pairBytes, ih, pairVal, if_neg hplus, hexVal_digitChar (div_sixteen_lt b),
        hexVal_digitChar (Nat.mod_lt _ (by omega)), Nat.div_add_mod', UInt8.ofNat_toNat]

theorem hexDigit_of_mem_hexText {bytes : List UInt8} {c : Char} (h : c ∈ hexText bytes) :
    HexDigit c := by
  induction bytes with
  | nil => cases h
  | cons b bytes ih =>
      rw [hexText_cons, List.mem_cons, List.mem_cons] at h
      rcases h with rfl | rfl | h
      · exact hexDigit_digitChar (div_sixteen_lt b)
      · exact hexDigit_digitChar (Nat.mod_lt _ (by omega))
      · exact ih h

theorem HexDigit.range {c : Char} (h : HexDigit c) : 48 ≤ c.toNat ∧ c.toNat ≤ 102 := by
  have h0 : '0'.toNat = 48 := rfl
  have h9 : '9'.toNat = 57 := rfl
  have ha : 'a'.toNat = 97 := rfl
  have hf : 'f'.toNat = 102 := rfl
  have hA : 'A'.toNat = 65 := rfl
  have hF : 'F'.toNat = 70 := rfl
  simp only [HexDigit, char_le_iff] at h
  omega

theorem HexDigit.not_isWhitespace {c : Char} (h : HexDigit c) : ¬ isWhitespace c := by
  have hrange := h.range
  simp [isWhitespace]
  omega

/-- `trim` takes the line end off again, and nothing else. -/
theorem trim_digits {s : Str} (h : ∀ c ∈ s, HexDigit c) : trim (s ++ ['\n']) = s := by
  have hkeep : ∀ t : Str, (∀ c ∈ t, HexDigit c) → t.dropWhile isWhitespace = t := by
    intro t ht
    cases t with
    | nil => rfl
    | cons c t => exact List.dropWhile_cons_of_neg (ht c List.mem_cons_self).not_isWhitespace
  cases s with
  | nil => rfl
  | cons c s =>
      have hfront : (c :: s ++ ['\n']).dropWhile isWhitespace = c :: s ++ ['\n'] :=
        List.dropWhile_cons_of_neg (h c List.mem_cons_self).not_isWhitespace
      rw [trim, hfront, List.reverse_append, List.reverse_singleton, List.singleton_append,
        List.dropWhile_cons_of_pos (by decide),
        hkeep _ fun d hd => h d (List.mem_reverse.mp hd), List.reverse_reverse]

theorem digitsOf_sidecarText (tag : List UInt8) : digitsOf (sidecarText tag) = hexText tag := by
  rw [digitsOf, sidecarText, trim_digits fun _ => hexDigit_of_mem_hexText, withoutBlanks,
    List.filter_eq_self]
  intro c hc
  have hrange := (hexDigit_of_mem_hexText hc).range
  have hline : c ≠ '\n' := by
    rintro rfl
    exact absurd hrange (by decide)
  have hspace : c ≠ ' ' := by
    rintro rfl
    exact absurd hrange (by decide)
  simp [hline, hspace]

theorem denotes_sidecarText_iff {tag tag' : List UInt8} :
    Denotes (sidecarText tag) tag' ↔ tag = tag' := by
  rw [Denotes, digitsOf_sidecarText, pairBytes_hexText]
  exact and_iff_right (pairsReadable_hexText tag)

theorem not_cutReference_sidecarText (tag : List UInt8) : ¬ CutReference (sidecarText tag) := by
  rw [CutReference, digitsOf_sidecarText]
  exact fun h => not_cutsChar_of_pairsReadable (pairsReadable_hexText tag) h.2

section
variable {H : Hmac} {fs fs' : FileSystem} {module p : Path} {paths : List Path}
  {write : FileSystem → Path → List UInt8 → Bool × FileSystem}

theorem integritySidecarPath_inj {p q : Path}
    (h : integritySidecarPath p = integritySidecarPath q) : p = q :=
  List.append_cancel_right h

/-- Next to a sidecar of the tool the test passes for the images with the tag in it, and fails
without a panic for the others. -/
theorem verifyModuleIntegrity_of_sidecar (H : Hmac) {tag : FixedBytes 32}
    (h : fs (integritySidecarPath module) = .ok (sidecarText tag.toList).asBytes) :
    verifyModuleIntegrity H fs module = .ok true ∧
      (∃ image, fs module = .ok image ∧ integrityTag H image = tag) ∨
    verifyModuleIntegrity H fs module = err .integrityCheckFailed ∧
      ¬ ∃ image, fs module = .ok image ∧ integrityTag H image = tag := by
  rcases verifyModuleIntegrity_of_text H h with ⟨-, ⟨image, himage, hdenotes⟩, hok⟩ |
    ⟨hcut, -⟩ | ⟨-, hdenotes, herr⟩
  · have htag := FixedBytes.ext (denotes_sidecarText_iff.mp hdenotes)
    exact Or.inl ⟨hok, image, himage, htag.symm⟩
  · exact absurd hcut (not_cutReference_sidecarText _)
  · refine Or.inr ⟨herr, ?_⟩
    rintro ⟨image, himage, rfl⟩
    exact hdenotes image himage (denotes_sidecarText_iff.mpr rfl)

/-- When `std::fs::write` succeeds, the file holds what was to be written and the other files are
as before. -/
def Writes (write : FileSystem → Path → List UInt8 → Bool × FileSystem) : Prop :=
  ∀ fs p bytes fs', write fs p bytes = (true, fs') → fs' = Function.update fs p (.ok bytes)

/-- One round of the tool. -/
theorem integrityLoop_cons (hwrite : Writes write)
    (h : integrityLoop H write (p :: paths) fs = (.success, fs')) :
    ∃ image, fs p = .ok image ∧
      integrityLoop H write paths (Function.update fs (integritySidecarPath p)
        (.ok (sidecarText (integrityTag H image).toList).asBytes)) = (.success, fs') := by
  rw [integrityLoop] at h
  cases himage : fs p with
  | error e =>
      rw [himage] at h
      cases h
  | ok image =>
      rw [himage] at h
      refine ⟨image, rfl, ?_⟩
      cases hwritten : write fs (integritySidecarPath p)
          (sidecarText (integrityTag H image).toList).asBytes with
      | mk written after =>
          dsimp only at h
          rw [hwritten] at h
          cases written with
          | false => cases h
          | true => exact hwrite _ _ _ _ hwritten ▸ h

/-- The tool writes sidecars only. -/
theorem integrityLoop_of_not_sidecar (hwrite : Writes write)
    (h : integrityLoop H write paths fs = (.success, fs'))
    (hother : ∀ q ∈ paths, p ≠ integritySidecarPath q) : fs' p = fs p := by
  induction paths generalizing fs with
  | nil =>
      rw [integrityLoop] at h
      rw [(Prod.mk.inj h).2]
  | cons q paths ih =>
      obtain ⟨image, -, hrest⟩ := integrityLoop_cons hwrite h
      rw [ih hrest fun r hr => hother r (List.mem_cons_of_mem _ hr),
        Function.update_of_ne (hother q List.mem_cons_self)]

/-- A path that it is given has its own tag next to it in the end. A path given twice gets the
sidecar twice, with the same tag. -/
theorem integrityLoop_sidecar (hwrite : Writes write)
    (h : integrityLoop H write paths fs = (.success, fs')) (hp : p ∈ paths)
    (hother : ∀ q ∈ paths, p ≠ integritySidecarPath q) :
    ∃ image, fs p = .ok image ∧
      fs' (integritySidecarPath p) = .ok (sidecarText (integrityTag H image).toList).asBytes := by
  induction paths generalizing fs with
  | nil => cases hp
  | cons q paths ih =>
      obtain ⟨image, himage, hrest⟩ := integrityLoop_cons hwrite h
      by_cases hagain : p ∈ paths
      · obtain ⟨image', himage', hsidecar⟩ :=
          ih hrest hagain fun r hr => hother r (List.mem_cons_of_mem _ hr)
        rw [Function.update_of_ne (hother q List.mem_cons_self)] at himage'
        exact ⟨image', himage', hsidecar⟩
      · obtain rfl := (List.mem_cons.mp hp).resolve_right hagain
        have hlast : ∀ r ∈ paths, integritySidecarPath p ≠ integritySidecarPath r :=
          fun r hr heq => hagain (integritySidecarPath_inj heq ▸ hr)
        refine ⟨image, himage, ?_⟩
        rw [integrityLoop_of_not_sidecar hwrite hrest hlast, Function.update_self]

/-- What the tool has certified starts as long as its image keeps the tag, with and without the
feature, and does not start afterwards. No image is touched. -/
theorem integrityMain_certifies (hwrite : Writes write)
    (h : integrityMain H write paths fs = (.success, fs')) :
    (∀ p, (∀ q ∈ paths, p ≠ integritySidecarPath q) → fs' p = fs p) ∧
    ∀ p ∈ paths, (∀ q ∈ paths, p ≠ integritySidecarPath q) →
      ∃ image, fs p = .ok image ∧
        ∀ later : FileSystem, later (integritySidecarPath p) = fs' (integritySidecarPath p) →
          ∀ fipsIntegrity,
            softwareIntegrityCheck H fipsIntegrity later (some p) = .ok ⟨⟩ ∧
              (∃ image', later p = .ok image' ∧ integrityTag H image' = integrityTag H image) ∨
            softwareIntegrityCheck H fipsIntegrity later (some p) = err .integrityCheckFailed ∧
              ¬ ∃ image', later p = .ok image' ∧
                integrityTag H image' = integrityTag H image := by
  rw [integrityMain] at h
  split at h
  · cases h
  refine ⟨fun p hother => integrityLoop_of_not_sidecar hwrite h hother, fun p hp hother => ?_⟩
  obtain ⟨image, himage, hsidecar⟩ := integrityLoop_sidecar hwrite h hp hother
  refine ⟨image, himage, fun later hlater fipsIntegrity => ?_⟩
  rcases verifyModuleIntegrity_of_sidecar H (hlater.trans hsidecar) with ⟨hok, hsame⟩ |
    ⟨herr, hchanged⟩
  · refine Or.inl ⟨?_, hsame⟩
    rw [softwareIntegrityCheck, hok]
    rfl
  · refine Or.inr ⟨?_, hchanged⟩
    rw [softwareIntegrityCheck, herr]
    rfl

end

/-- A digest that shows the start of the message, for a concrete instance. -/
def messageHmac : Hmac := fun _ msg => .ofList 32 msg

/-- A disk on which every write succeeds. -/
def writeFile (fs : FileSystem) (path : Path) (bytes : List UInt8) : Bool × FileSystem :=
  (true, Function.update fs path (.ok bytes))

theorem writes_writeFile : Writes writeFile := by
  rintro fs p bytes fs' h
  exact (Prod.mk.inj h).2.symm

/-- The executable `a` with an image of one byte, and nothing else. -/
def oneFile : FileSystem := Function.update (fun _ => .error .notFound) [97] (.ok [1])

theorem integrityMain_certifies_one_file :
    softwareIntegrityCheck messageHmac true (integrityMain messageHmac writeFile [[97]] oneFile).2
        (some [97]) = .ok ⟨⟩ ∧
      softwareIntegrityCheck messageHmac true
        (Function.update (integrityMain messageHmac writeFile [[97]] oneFile).2 [97] (.ok [2]))
        (some [97]) = err .integrityCheckFailed := by
  obtain ⟨hframe, hcert⟩ := integrityMain_certifies (H := messageHmac) writes_writeFile
    (show integrityMain messageHmac writeFile [[97]] oneFile =
      (.success, (integrityMain messageHmac writeFile [[97]] oneFile).2) from rfl)
  have hother : ∀ q ∈ [([97] : Path)], [97] ≠ integritySidecarPath q := by
    intro q hq h
    obtain rfl := List.mem_singleton.mp hq
    exact absurd (congrArg List.length h) (by decide)
  have hself : oneFile [97] = .ok [1] := Function.update_self ..
  obtain ⟨image, himage, hlater⟩ := hcert [97] List.mem_cons_self hother
  obtain rfl := Except.ok.inj (hself.symm.trans himage)
  constructor
  · rcases hlater _ rfl true with ⟨hok, -⟩ | ⟨-, hchanged⟩
    · exact hok
    · exact absurd ⟨[1], (hframe [97] hother).trans hself, rfl⟩ hchanged
  · rcases hlater (Function.update _ [97] (.ok [2]))
      (Function.update_of_ne (hother [97] List.mem_cons_self).symm ..) true with
      ⟨-, image', himage', htag⟩ | ⟨herr, -⟩
    · rw [Function.update_self] at himage'
      obtain rfl := Except.ok.inj himage'
      exact absurd (congrArg (fun tag => tag.toList.head?) htag) (by decide)
    · exact herr

end Napqes.Rust
