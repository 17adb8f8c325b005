import Napqes.Rust.KeyStore

/-!
# What the key file accepts

`parse_sk_hex` hands each pair of characters to `from_str_radix`, which reads `+5` as it reads `05`.
In the same way two device strings can be the same device, and then the entry that comes last in the
iteration of the map stays.
-/

namespace Napqes.Rust

/-! ## Digits -/

/-- A hexadecimal digit. -/
def HexDigit (c : Char) : Prop :=
  '0' ≤ c ∧ c ≤ '9' ∨ 'a' ≤ c ∧ c ≤ 'f' ∨ 'A' ≤ c ∧ c ≤ 'F'

theorem char_le_iff (c d : Char) : c ≤ d ↔ c.toNat ≤ d.toNat := Iff.rfl

theorem isSome_toDigit_iff {c : Char} : (toDigit 16 c).isSome ↔ HexDigit c := by
  have h0 : '0'.toNat = 48 := rfl
  have h9 : '9'.toNat = 57 := rfl
  have ha : 'a'.toNat = 97 := rfl
  have hf : 'f'.toNat = 102 := rfl
  have hz : 'z'.toNat = 122 := rfl
  have hA : 'A'.toNat = 65 := rfl
  have hF : 'F'.toNat = 70 := rfl
  have hZ : 'Z'.toNat = 90 := rfl
  simp only [toDigit, HexDigit, char_le_iff, h0, h9, ha, hf, hz, hA, hF, hZ]
  split
  · simp
    omega
  · split
    · simp
      omega
    · split
      · simp
        omega
      · simp
        omega

/-- The value of a digit. -/
def hexVal (c : Char) : Nat := (toDigit 16 c).getD 0

theorem toDigit_of_hexDigit {c : Char} (h : HexDigit c) : toDigit 16 c = some (hexVal c) := by
  obtain ⟨v, hv⟩ := Option.isSome_iff_exists.mp (isSome_toDigit_iff.mpr h)
  rw [hexVal, hv]
  rfl

theorem toDigit_of_not_hexDigit {c : Char} (h : ¬ HexDigit c) : toDigit 16 c = none :=
  Option.not_isSome_iff_eq_none.mp fun hsome => h (isSome_toDigit_iff.mp hsome)

theorem hexVal_lt (c : Char) : hexVal c < 16 := by
  rw [hexVal]
  cases h : toDigit 16 c with
  | none => decide
  | some v =>
      rw [toDigit] at h
      simpa using (Option.filter_eq_some_iff.mp h).2

theorem HexDigit.ascii {c : Char} (h : HexDigit c) : c.toNat < 128 := by
  have h9 : '9'.toNat = 57 := rfl
  have hf : 'f'.toNat = 102 := rfl
  have hF : 'F'.toNat = 70 := rfl
  rcases h with ⟨-, h⟩ | ⟨-, h⟩ | ⟨-, h⟩
  all_goals rw [char_le_iff] at h; omega

theorem not_hexDigit_plus : ¬ HexDigit '+' := by
  rw [← isSome_toDigit_iff]
  decide

/-! ## Pairs of characters -/

/-- What `from_str_radix` takes for two hexadecimal digits. -/
def PairReadable (a b : Char) : Prop := (a = '+' ∨ HexDigit a) ∧ HexDigit b

/-- The value it gives: a sign adds nothing. -/
def pairVal (a b : Char) : Nat := if a = '+' then hexVal b else hexVal a * 16 + hexVal b

theorem fromStrRadix_of_ne_plus {radix bound : Nat} {a : Char} (h : a ≠ '+') (src : Str) :
    fromStrRadix radix bound (a :: src) = fromDigits radix bound (a :: src) 0 := by
  rw [fromStrRadix.eq_4]
  · simp
  · simp [h]
  · simp [h]

theorem fromDigits_cons_of_hexDigit {c : Char} (h : HexDigit c) {result : Nat} (src : Str)
    (hfits : result * 16 + hexVal c < 256) :
    fromDigits 16 256 (c :: src) result = fromDigits 16 256 src (result * 16 + hexVal c) := by
  rw [fromDigits, toDigit_of_hexDigit h]
  exact if_pos hfits

theorem fromDigits_cons_of_not_hexDigit {c : Char} (h : ¬ HexDigit c) (src : Str) (result : Nat) :
    fromDigits 16 256 (c :: src) result = none := by
  rw [fromDigits, toDigit_of_not_hexDigit h]
  rfl

theorem fromStrRadix_pair_of {a b : Char} (h : PairReadable a b) :
    fromStrRadix 16 256 [a, b] = some (pairVal a b) := by
  obtain ⟨ha, hb⟩ := h
  have hvala := hexVal_lt a
  have hvalb := hexVal_lt b
  by_cases hplus : a = '+'
  · subst hplus
    show fromDigits 16 256 [b] 0 = _
    rw [fromDigits_cons_of_hexDigit hb [] (by omega), pairVal, if_pos rfl, fromDigits, Nat.zero_mul,
      Nat.zero_add]
  · have hdigit := ha.resolve_left hplus
    rw [fromStrRadix_of_ne_plus hplus, fromDigits_cons_of_hexDigit hdigit [b] (by omega),
      fromDigits_cons_of_hexDigit hb [] (by omega), pairVal, if_neg hplus, fromDigits, Nat.zero_mul,
      Nat.zero_add]

theorem fromStrRadix_pair_of_not {a b : Char} (h : ¬ PairReadable a b) :
    fromStrRadix 16 256 [a, b] = none := by
  by_cases hplus : a = '+'
  · subst hplus
    have hb : ¬ HexDigit b := fun hb => h ⟨.inl rfl, hb⟩
    exact fromDigits_cons_of_not_hexDigit hb [] 0
  · rw [fromStrRadix_of_ne_plus hplus]
    by_cases ha : HexDigit a
    · have hb : ¬ HexDigit b := fun hb => h ⟨.inr ha, hb⟩
      have hval := hexVal_lt a
      rw [fromDigits_cons_of_hexDigit ha [b] (by omega), fromDigits_cons_of_not_hexDigit hb]
    · exact fromDigits_cons_of_not_hexDigit ha [b] 0

/-! ## The secret -/

/-- Pairs that `from_str_radix` takes, and nothing else. -/
def PairsReadable : Str → Prop
  | [] => True
  | a :: b :: rest => PairReadable a b ∧ PairsReadable rest
  | _ => False

/-- The bytes read from the pairs. -/
def pairBytes : Str → List UInt8
  | a :: b :: rest => UInt8.ofNat (pairVal a b) :: pairBytes rest
  | _ => []

/-- The bytes that hexadecimal digits denote. -/
def hexBytes : Str → List UInt8
  | a :: b :: rest => UInt8.ofNat (hexVal a * 16 + hexVal b) :: hexBytes rest
  | _ => []

/-- One byte of `parse_sk_hex`. -/
def skByte (hex : Str) (i : Nat) : RustM String UInt8 :=
  match fromStrRadix 16 256 ((hex.drop (2 * i)).take 2) with
  | some b => .ok (UInt8.ofNat b)
  | none => err "sk_hex is not valid hex"

theorem mapM_skByte_succ {a b : Char} (rest : Str) (n : Nat) :
    (List.range (n + 1)).mapM (skByte (a :: b :: rest)) = (do
      let x ← skByte [a, b] 0
      let xs ← (List.range n).mapM (skByte rest)
      return x :: xs) := by
  rw [List.range_succ_eq_map, List.mapM_cons, List.mapM_map]
  rfl

theorem mapM_skByte_eq_ok_iff {n : Nat} {hex : Str} (hlen : hex.length = 2 * n) {bs : List UInt8} :
    (List.range n).mapM (skByte hex) = .ok bs ↔ PairsReadable hex ∧ bs = pairBytes hex := by
  induction n generalizing hex bs with
  | zero =>
      obtain rfl := List.length_eq_zero_iff.mp hlen
      simp [PairsReadable, pairBytes, pure, Except.pure, eq_comm]
  | succ n ih =>
      obtain _ | ⟨a, _ | ⟨b, rest⟩⟩ := hex
      · simp at hlen
      · simp at hlen
        omega
      rw [mapM_skByte_succ, PairsReadable, pairBytes]
      have hrest : rest.length = 2 * n := by
        simp only [List.length_cons] at hlen
        omega
      by_cases hpair : PairReadable a b
      · have hbyte : skByte [a, b] 0 = .ok (UInt8.ofNat (pairVal a b)) := by
          show (match fromStrRadix 16 256 [a, b] with
            | some b => (.ok (UInt8.ofNat b) : RustM String UInt8)
            | none => err "sk_hex is not valid hex") = _
          rw [fromStrRadix_pair_of hpair]
        rw [hbyte, ok_bind, bind_eq_ok]
        constructor
        · rintro ⟨xs, hxs, hbs⟩
          obtain ⟨hreadable, rfl⟩ := (ih hrest).mp hxs
          exact ⟨⟨hpair, hreadable⟩, (Except.ok.inj hbs).symm⟩
        · rintro ⟨⟨-, hreadable⟩, rfl⟩
          exact ⟨pairBytes rest, (ih hrest).mpr ⟨hreadable, rfl⟩, rfl⟩
      · have hbyte : skByte [a, b] 0 = err "sk_hex is not valid hex" := by
          show (match fromStrRadix 16 256 [a, b] with
            | some b => (.ok (UInt8.ofNat b) : RustM String UInt8)
            | none => err "sk_hex is not valid hex") = _
          rw [fromStrRadix_pair_of_not hpair]
        rw [hbyte]
        constructor
        · intro h
          cases h
        · rintro ⟨⟨h, -⟩, -⟩
          exact absurd h hpair

theorem length_asBytes_of_ascii {s : Str} (h : isAscii s = true) :
    s.asBytes.length = s.length := by
  induction s with
  | nil => rfl
  | cons c s ih =>
      rw [isAscii, List.all_cons, Bool.and_eq_true, decide_eq_true_eq] at h
      have hsize : c.utf8Size = 1 := Char.utf8Size_eq_one_iff.mpr (Nat.le_of_lt_succ h.1)
      rw [Str.asBytes, List.flatMap_cons, List.length_append, String.length_utf8EncodeChar, hsize,
        List.length_cons, Nat.add_comm]
      exact congrArg (· + 1) (ih h.2)

theorem isAscii_of_pairsReadable {s : Str} (h : PairsReadable s) : isAscii s = true := by
  induction s using PairsReadable.induct with
  | case1 => rfl
  | case2 a b rest ih =>
      obtain ⟨⟨ha, hb⟩, hrest⟩ := h
      have hplus : '+'.toNat < 128 := by decide
      have hascii : a.toNat < 128 := ha.elim (fun h => h ▸ hplus) HexDigit.ascii
      have hrest := ih hrest
      rw [isAscii] at hrest ⊢
      rw [List.all_cons, List.all_cons, hrest, decide_eq_true hascii, decide_eq_true hb.ascii]
      rfl
  | case3 s hnil hshort => rw [PairsReadable.eq_3 _ hnil hshort] at h; exact h.elim

theorem length_pairBytes {s : Str} (h : PairsReadable s) : 2 * (pairBytes s).length = s.length := by
  induction s using PairsReadable.induct with
  | case1 => rfl
  | case2 a b rest ih =>
      have hrest := ih h.2
      rw [pairBytes, List.length_cons, List.length_cons, List.length_cons]
      omega
  | case3 s hnil hshort => rw [PairsReadable.eq_3 _ hnil hshort] at h; exact h.elim

/-- `parse_sk_hex` takes 32 pairs. -/
theorem parseSkHex_eq_ok_iff {hex : Str} {sk : FixedBytes skSize} :
    parseSkHex hex = .ok sk ↔
      hex.length = 2 * skSize ∧ PairsReadable hex ∧ sk.toList = pairBytes hex := by
  rw [parseSkHex]
  by_cases hascii : isAscii hex = true
  · rw [length_asBytes_of_ascii hascii, hascii]
    by_cases hlen : hex.length = 2 * skSize
    · rw [if_neg (by simpa using hlen)]
      constructor
      · intro h
        obtain ⟨bs, hbs, hsk⟩ := bind_eq_ok.mp h
        obtain ⟨hreadable, rfl⟩ := (mapM_skByte_eq_ok_iff hlen).mp hbs
        have hlength : (pairBytes hex).length = skSize := by
          have := length_pairBytes hreadable
          omega
        refine ⟨hlen, hreadable, ?_⟩
        rw [← Except.ok.inj hsk]
        exact FixedBytes.toList_ofList hlength
      · rintro ⟨-, hreadable, hsk⟩
        have hbytes := (mapM_skByte_eq_ok_iff hlen).mpr ⟨hreadable, rfl⟩
        refine bind_eq_ok.mpr ⟨pairBytes hex, hbytes, ?_⟩
        rw [← hsk, FixedBytes.ofList_toList]
        rfl
    · rw [if_pos (by simpa using hlen)]
      constructor
      · intro h
        cases h
      · rintro ⟨h, -⟩
        exact absurd h hlen
  · rw [if_pos (by simp [hascii])]
    constructor
    · intro h
      cases h
    · rintro ⟨-, hreadable, -⟩
      exact absurd (isAscii_of_pairsReadable hreadable) hascii

/-- `s` is 64 hexadecimal digits. -/
def HexString (s : Str) : Prop := s.length = 2 * skSize ∧ ∀ c ∈ s, HexDigit c

theorem pairBytes_eq_hexBytes {s : Str} (h : ∀ c ∈ s, HexDigit c) : pairBytes s = hexBytes s := by
  induction s using PairsReadable.induct with
  | case1 => rfl
  | case2 a b rest ih =>
      have ha : a ≠ '+' := fun ha => not_hexDigit_plus (ha ▸ h a (by simp))
      rw [pairBytes, hexBytes, pairVal, if_neg ha, ih fun c hc => h c (by simp [hc])]
  | case3 s hnil hshort => rw [pairBytes.eq_2 _ hshort, hexBytes.eq_2 _ hshort]

theorem pairsReadable_of_hexDigits {s : Str} {n : Nat} (hlen : s.length = 2 * n)
    (h : ∀ c ∈ s, HexDigit c) : PairsReadable s := by
  induction s using PairsReadable.induct generalizing n with
  | case1 => trivial
  | case2 a b rest ih =>
      simp only [List.length_cons] at hlen
      exact ⟨⟨.inr (h a (by simp)), h b (by simp)⟩,
        ih (n := n - 1) (by omega) fun c hc => h c (by simp [hc])⟩
  | case3 s hnil hshort =>
      obtain _ | ⟨a, _ | ⟨b, rest⟩⟩ := s
      · exact absurd rfl hnil
      · rw [List.length_singleton] at hlen
        omega
      · exact (hshort a b rest rfl).elim

theorem hexDigits_of_pairsReadable {s : Str} (h : PairsReadable s) (hplus : '+' ∉ s) :
    ∀ c ∈ s, HexDigit c := by
  induction s using PairsReadable.induct with
  | case1 => simp
  | case2 a b rest ih =>
      obtain ⟨⟨ha, hb⟩, hrest⟩ := h
      simp only [List.mem_cons, not_or] at hplus
      obtain ⟨hane, -, hplus⟩ := hplus
      have ha : HexDigit a := ha.resolve_left fun h => hane h.symm
      intro c hc
      simp only [List.mem_cons] at hc
      rcases hc with rfl | rfl | hc
      · exact ha
      · exact hb
      · exact ih hrest hplus c hc
  | case3 s hnil hshort => rw [PairsReadable.eq_3 _ hnil hshort] at h; exact h.elim

theorem exists_parseSkHex {s : Str} (hlen : s.length = 2 * skSize) (h : PairsReadable s) :
    ∃ sk, parseSkHex s = .ok sk := by
  have hlength : (pairBytes s).length = skSize := by
    have := length_pairBytes h
    omega
  exact ⟨⟨pairBytes s, hlength⟩, parseSkHex_eq_ok_iff.mpr ⟨hlen, h, rfl⟩⟩

/-- `parse_sk_hex` reads exactly the 64-digit strings, as the bytes they denote, unless the string
is 32 readable pairs with a sign among them. -/
theorem parse_sk_hex_strict_iff (s : Str) :
    (∀ sk, parseSkHex s = .ok sk ↔ HexString s ∧ sk.toList = hexBytes s) ↔
      ¬ (s.length = 2 * skSize ∧ PairsReadable s ∧ '+' ∈ s) := by
  constructor
  · rintro hstrict ⟨hlen, hreadable, hplus⟩
    obtain ⟨sk, hsk⟩ := exists_parseSkHex hlen hreadable
    obtain ⟨⟨-, hdigits⟩, -⟩ := (hstrict sk).mp hsk
    exact not_hexDigit_plus (hdigits '+' hplus)
  · intro hno sk
    rw [parseSkHex_eq_ok_iff]
    constructor
    · rintro ⟨hlen, hreadable, hsk⟩
      have hdigits := hexDigits_of_pairsReadable hreadable fun hplus => hno ⟨hlen, hreadable, hplus⟩
      exact ⟨⟨hlen, hdigits⟩, hsk.trans (pairBytes_eq_hexBytes hdigits)⟩
    · rintro ⟨⟨hlen, hdigits⟩, hsk⟩
      exact ⟨hlen, pairsReadable_of_hexDigits hlen hdigits,
        hsk.trans (pairBytes_eq_hexBytes hdigits).symm⟩

/-- 32 times `+5` is read as 32 times `05`. -/
theorem parse_sk_hex_takes_signs :
    ¬ ∀ s sk, parseSkHex s = .ok sk ↔ HexString s ∧ sk.toList = hexBytes s := by
  intro hstrict
  have hreadable : PairsReadable (List.replicate 32 ['+', '5']).flatten := by
    have hpair : PairReadable '+' '5' := ⟨.inl rfl, isSome_toDigit_iff.mp (by decide)⟩
    have hall : ∀ n, PairsReadable (List.replicate n ['+', '5']).flatten := by
      intro n
      induction n with
      | zero => trivial
      | succ n ih => exact ⟨hpair, ih⟩
    exact hall 32
  obtain ⟨sk, hsk⟩ := exists_parseSkHex (by decide) hreadable
  obtain ⟨⟨-, hdigits⟩, -⟩ := (hstrict _ sk).mp hsk
  exact not_hexDigit_plus (hdigits '+' (by decide))

/-! ## The store -/

/-- The insertions of the loop, one after the other. -/
def insertAll (pairs : List (Nat × NapqesKey)) (data : FileKeyStore) : FileKeyStore :=
  pairs.foldl (fun data p => data.insert p.1 p.2) data

theorem loadEntries_eq_ok_iff {raw : List (Str × FileKeyEntry)} {data store : FileKeyStore} :
    loadEntries raw data = .ok store ↔
      ∃ pairs, List.Forall₂ (fun e p => loadEntry e.1 e.2 = .ok p) raw pairs ∧
        store = insertAll pairs data := by
  induction raw generalizing data with
  | nil =>
      simp only [loadEntries, List.forall₂_nil_left_iff, exists_eq_left]
      exact ⟨fun h => (Except.ok.inj h).symm, fun h => congrArg Except.ok h.symm⟩
  | cons e raw ih =>
      obtain ⟨k, v⟩ := e
      rw [loadEntries, bind_eq_ok]
      constructor
      · rintro ⟨⟨id, key⟩, hentry, hrest⟩
        obtain ⟨pairs, hpairs, rfl⟩ := ih.mp hrest
        exact ⟨(id, key) :: pairs, .cons hentry hpairs, rfl⟩
      · rintro ⟨pairs, hpairs, rfl⟩
        cases hpairs with
        | cons hentry hpairs => exact ⟨_, hentry, ih.mpr ⟨_, hpairs, rfl⟩⟩

theorem insertAll_append (pairs pairs' : List (Nat × NapqesKey)) (data : FileKeyStore) :
    insertAll (pairs ++ pairs') data = insertAll pairs' (insertAll pairs data) :=
  List.foldl_append

/-- A device is found with the key of one of its insertions. -/
theorem insertAll_eq_some {pairs : List (Nat × NapqesKey)} {id : Nat} {key : NapqesKey}
    (h : insertAll pairs (fun _ => none) id = some key) : (id, key) ∈ pairs := by
  induction pairs using List.reverseRecOn with
  | nil => cases h
  | append_singleton pairs p ih =>
      rw [insertAll_append] at h
      by_cases hid : id = p.1
      · have hkey : p.2 = key := Option.some.inj ((if_pos hid).symm.trans h)
        rw [List.mem_append, List.mem_singleton]
        exact .inr (Prod.ext hid hkey.symm)
      · exact List.mem_append_left _ (ih ((if_neg hid).symm.trans h))

theorem insertAll_eq_none {pairs : List (Nat × NapqesKey)} {id : Nat}
    (h : insertAll pairs (fun _ => none) id = none) : ∀ p ∈ pairs, p.1 ≠ id := by
  induction pairs using List.reverseRecOn with
  | nil => simp
  | append_singleton pairs p ih =>
      rw [insertAll_append] at h
      by_cases hid : id = p.1
      · have hnone : some p.2 = none := (if_pos hid).symm.trans h
        cases hnone
      · intro q hq
        rcases List.mem_append.mp hq with hq | hq
        · exact ih ((if_neg hid).symm.trans h) q hq
        · rw [List.mem_singleton.mp hq]
          exact Ne.symm hid

/-- Both loads fail, or both succeed and no device tells the stores apart. -/
def SameStores (x y : RustM String FileKeyStore) : Prop :=
  (∃ e, x = .error e) ∧ (∃ e, y = .error e) ∨
    ∃ s t, x = .ok s ∧ y = .ok t ∧ ∀ id : UInt64, s.load id.toNat = t.load id.toNat

/-- An entry that ends the loop. -/
def EntryFails (e : Str × FileKeyEntry) : Prop := ∃ fault, loadEntry e.1 e.2 = .error fault

/-- Two entries for one device with different keys. -/
def Conflict (raw : List (Str × FileKeyEntry)) : Prop :=
  ∃ e ∈ raw, ∃ e' ∈ raw, ∃ id key key', loadEntry e.1 e.2 = .ok (id, key) ∧
    loadEntry e'.1 e'.2 = .ok (id, key') ∧ key ≠ key'

theorem loadEntries_fails_iff {raw : List (Str × FileKeyEntry)} {data : FileKeyStore} :
    (∃ fault, loadEntries raw data = .error fault) ↔ ∃ e ∈ raw, EntryFails e := by
  induction raw generalizing data with
  | nil => simp [loadEntries, pure, Except.pure]
  | cons e raw ih =>
      obtain ⟨k, v⟩ := e
      rw [loadEntries]
      cases hentry : loadEntry k v with
      | error fault => simp [EntryFails, hentry]
      | ok p =>
          rw [ok_bind]
          simp only [List.mem_cons, exists_eq_or_imp]
          rw [ih]
          constructor
          · exact .inr
          · rintro (⟨fault, hfault⟩ | h)
            · rw [hentry] at hfault
              cases hfault
            · exact h

theorem loadEntries_append (raw raw' : List (Str × FileKeyEntry)) (data : FileKeyStore) :
    loadEntries (raw ++ raw') data = loadEntries raw data >>= loadEntries raw' := by
  induction raw generalizing data with
  | nil => rfl
  | cons e raw ih =>
      obtain ⟨k, v⟩ := e
      rw [List.cons_append, loadEntries, loadEntries]
      cases loadEntry k v with
      | error fault => rfl
      | ok p =>
          obtain ⟨id, key⟩ := p
          exact ih _

/-- The entry that comes last stays. -/
theorem lookup_of_last {raw : List (Str × FileKeyEntry)} {e : Str × FileKeyEntry} {id : Nat}
    {key : NapqesKey} {store : FileKeyStore} (hentry : loadEntry e.1 e.2 = .ok (id, key))
    (h : loadFromFile (raw ++ [e]) = .ok store) : store id = some key := by
  rw [loadFromFile, loadEntries_append] at h
  obtain ⟨data, -, h⟩ := bind_eq_ok.mp h
  rw [loadEntries, hentry, ok_bind] at h
  rw [← Except.ok.inj h]
  exact if_pos rfl

theorem mem_iff_of_forall₂ {raw : List (Str × FileKeyEntry)} {pairs : List (Nat × NapqesKey)}
    (h : List.Forall₂ (fun e p => loadEntry e.1 e.2 = .ok p) raw pairs) {p : Nat × NapqesKey} :
    p ∈ pairs ↔ ∃ e ∈ raw, loadEntry e.1 e.2 = .ok p := by
  induction h with
  | nil => simp
  | cons hentry _ ih =>
      rw [List.mem_cons, ih, List.exists_mem_cons_iff, hentry]
      simp [eq_comm]

/-- Without a conflict a device found after one order of the entries is found, with the same key,
after every other. -/
theorem lookup_of_no_conflict {raw raw₁ raw₂ : List (Str × FileKeyEntry)} (h₁ : raw₁.Perm raw)
    (h₂ : raw₂.Perm raw) (hno : ¬ Conflict raw) {s t : FileKeyStore}
    (hs : loadFromFile raw₁ = .ok s) (ht : loadFromFile raw₂ = .ok t) {id : Nat} {key : NapqesKey}
    (h : s id = some key) : t id = some key := by
  obtain ⟨pairs₁, hpairs₁, rfl⟩ := loadEntries_eq_ok_iff.mp hs
  obtain ⟨pairs₂, hpairs₂, rfl⟩ := loadEntries_eq_ok_iff.mp ht
  obtain ⟨e, he, hentry⟩ := (mem_iff_of_forall₂ hpairs₁).mp (insertAll_eq_some h)
  have he : e ∈ raw := h₁.mem_iff.mp he
  have hmem : (id, key) ∈ pairs₂ := (mem_iff_of_forall₂ hpairs₂).mpr ⟨e, h₂.mem_iff.mpr he, hentry⟩
  cases hfound : insertAll pairs₂ (fun _ => none) id with
  | none => exact absurd rfl (insertAll_eq_none hfound (id, key) hmem)
  | some key' =>
      obtain ⟨e', he', hentry'⟩ := (mem_iff_of_forall₂ hpairs₂).mp (insertAll_eq_some hfound)
      have he' : e' ∈ raw := h₂.mem_iff.mp he'
      by_contra hne
      exact hno ⟨e, he, e', he', id, key, key', hentry, hentry', fun heq => hne (by rw [heq])⟩

theorem sameStores_of_no_conflict {raw raw₁ raw₂ : List (Str × FileKeyEntry)}
    (h₁ : raw₁.Perm raw) (h₂ : raw₂.Perm raw) (hno : ¬ Conflict raw) {s t : FileKeyStore}
    (hs : loadFromFile raw₁ = .ok s) (ht : loadFromFile raw₂ = .ok t) : s = t := by
  funext id
  cases hsid : s id with
  | some key => exact (lookup_of_no_conflict h₁ h₂ hno hs ht hsid).symm
  | none =>
      cases htid : t id with
      | none => rfl
      | some key =>
          rw [lookup_of_no_conflict h₂ h₁ hno ht hs htid] at hsid
          cases hsid

theorem exists_loadFromFile {raw raw' : List (Str × FileKeyEntry)} (h : raw'.Perm raw)
    (hok : ¬ ∃ e ∈ raw, EntryFails e) : ∃ store, loadFromFile raw' = .ok store := by
  cases hload : loadFromFile raw' with
  | ok store => exact ⟨store, rfl⟩
  | error fault =>
      obtain ⟨e, he, hfails⟩ := loadEntries_fails_iff.mp ⟨fault, hload⟩
      exact absurd ⟨e, h.mem_iff.mp he, hfails⟩ hok

theorem fromDigits_lt {radix bound result v : Nat} {src : Str} (hresult : result < bound)
    (h : fromDigits radix bound src result = some v) : v < bound := by
  induction src generalizing result with
  | nil => exact Option.some.inj h ▸ hresult
  | cons c src ih =>
      rw [fromDigits] at h
      obtain ⟨x, -, h⟩ := Option.bind_eq_some_iff.mp h
      split at h
      case isTrue hfits => exact ih hfits h
      case isFalse => cases h

theorem parseU64_lt {src : Str} {id : Nat} (h : parseU64 src = some id) : id < 2 ^ 64 := by
  unfold parseU64 fromStrRadix at h
  split at h
  case h_1 => cases h
  case h_2 => cases h
  case h_3 => exact fromDigits_lt (by decide) h
  case h_4 => exact fromDigits_lt (by decide) h

theorem id_lt_of_loadEntry {k : Str} {v : FileKeyEntry} {id : Nat} {key : NapqesKey}
    (h : loadEntry k v = .ok (id, key)) : id < 2 ^ 64 := by
  rw [loadEntry] at h
  obtain ⟨id', hid, h⟩ := bind_eq_ok.mp h
  obtain ⟨sk, -, h⟩ := bind_eq_ok.mp h
  obtain ⟨key', -, h⟩ := bind_eq_ok.mp h
  have heq : id' = id := congrArg Prod.fst (Except.ok.inj h)
  split at hid
  case h_1 n hn =>
    rw [← heq, ← Except.ok.inj hid]
    exact parseU64_lt hn
  case h_2 => cases hid

theorem load_inj {s t : FileKeyStore} {id : Nat} {key key' : NapqesKey} (hs : s id = some key)
    (ht : t id = some key') (h : s.load id = t.load id) : key = key' := by
  rw [FileKeyStore.load, FileKeyStore.load, hs, ht] at h
  exact Except.ok.inj h

theorem exists_perm_concat {raw : List (Str × FileKeyEntry)} {e : Str × FileKeyEntry}
    (h : e ∈ raw) : ∃ front, (front ++ [e]).Perm raw :=
  ⟨raw.erase e, (List.perm_append_singleton e _).trans (List.perm_cons_erase h).symm⟩

/-- The order in which the map is iterated makes no difference to the load exactly when some entry
fails or no two entries give one device different keys. -/
theorem load_from_file_order_iff (raw : List (Str × FileKeyEntry)) :
    (∀ raw₁ raw₂, raw₁.Perm raw → raw₂.Perm raw →
      SameStores (loadFromFile raw₁) (loadFromFile raw₂)) ↔
      (∃ e ∈ raw, EntryFails e) ∨ ¬ Conflict raw := by
  constructor
  · intro hsame
    by_contra hcond
    obtain ⟨hok, hconflict⟩ := not_or.mp hcond
    obtain ⟨e, he, e', he', id, key, key', hentry, hentry', hne⟩ := not_not.mp hconflict
    obtain ⟨front, hfront⟩ := exists_perm_concat he
    obtain ⟨front', hfront'⟩ := exists_perm_concat he'
    rcases hsame _ _ hfront hfront' with ⟨⟨fault, hfault⟩, -⟩ | ⟨s, t, hs, ht, hload⟩
    · obtain ⟨store, hstore⟩ := exists_loadFromFile hfront hok
      rw [hstore] at hfault
      cases hfault
    · have hid : (UInt64.ofNat id).toNat = id :=
        UInt64.toNat_ofNat_of_lt' (id_lt_of_loadEntry hentry)
      have heq := hload (UInt64.ofNat id)
      rw [hid] at heq
      exact hne (load_inj (lookup_of_last hentry hs) (lookup_of_last hentry' ht) heq)
  · intro hcond raw₁ raw₂ h₁ h₂
    by_cases hok : ∃ e ∈ raw, EntryFails e
    · obtain ⟨e, he, hfails⟩ := hok
      exact .inl ⟨loadEntries_fails_iff.mpr ⟨e, h₁.mem_iff.mpr he, hfails⟩,
        loadEntries_fails_iff.mpr ⟨e, h₂.mem_iff.mpr he, hfails⟩⟩
    · obtain ⟨s, hs⟩ := exists_loadFromFile h₁ hok
      obtain ⟨t, ht⟩ := exists_loadFromFile h₂ hok
      obtain rfl := sameStores_of_no_conflict h₁ h₂ (hcond.resolve_left hok) hs ht
      exact .inr ⟨s, s, hs, ht, fun _ => rfl⟩

theorem loadEntry_of {k : Str} {v : FileKeyEntry} {id : Nat} {sk : FixedBytes skSize}
    {key : NapqesKey} (hid : parseU64 k = some id) (hsk : parseSkHex v.skHex = .ok sk)
    (hkey : NapqesKey.new (v.primes.map UInt64.toNat) sk = .ok key) :
    loadEntry k v = .ok (id, key) := by
  simp only [loadEntry, hid, ok_bind, hsk, mapErr_ok, hkey]
  rfl

/-- Device 1 with the secret of zero bytes. -/
def firstEntry : Str × FileKeyEntry := (['1'], ⟨[1000003], List.replicate 64 '0'⟩)

/-- Device 1 in another spelling, with another secret. -/
def secondEntry : Str × FileKeyEntry := (['0', '1'], ⟨[1000003], List.replicate 64 '1'⟩)

theorem loadEntry_replicate {k : Str} {id : Nat} (hid : parseU64 k = some id) {c : Char}
    (hc : HexDigit c) : ∃ key : NapqesKey, key.sk.toList = pairBytes (List.replicate 64 c) ∧
      loadEntry k ⟨[1000003], List.replicate 64 c⟩ = .ok (id, key) := by
  have hlen : (List.replicate 64 c).length = 2 * skSize := List.length_replicate
  have hreadable : PairsReadable (List.replicate 64 c) :=
    pairsReadable_of_hexDigits hlen fun d hd => List.eq_of_mem_replicate hd ▸ hc
  obtain ⟨sk, hsk⟩ := exists_parseSkHex hlen hreadable
  obtain ⟨-, -, hbytes⟩ := parseSkHex_eq_ok_iff.mp hsk
  exact ⟨⟨[1000003], sk, validateKey_1000003⟩, hbytes,
    loadEntry_of hid hsk (NapqesKey.new_eq_ok validateKey_1000003 sk)⟩

/-- One device under the strings `1` and `01`, with different secrets: the order decides which key
is loaded. -/
theorem load_from_file_order_matters :
    firstEntry.1 ≠ secondEntry.1 ∧
      ¬ SameStores (loadFromFile [firstEntry, secondEntry])
        (loadFromFile [secondEntry, firstEntry]) := by
  have hzero : HexDigit '0' := isSome_toDigit_iff.mp (by decide)
  have hone : HexDigit '1' := isSome_toDigit_iff.mp (by decide)
  obtain ⟨key, hkey, hentry⟩ := loadEntry_replicate (show parseU64 ['1'] = some 1 by decide) hzero
  obtain ⟨key', hkey', hentry'⟩ :=
    loadEntry_replicate (show parseU64 ['0', '1'] = some 1 by decide) hone
  refine ⟨by decide, ?_⟩
  rintro (⟨⟨fault, hfault⟩, -⟩ | ⟨s, t, hs, ht, hload⟩)
  · obtain ⟨e, he, fault, hfails⟩ := loadEntries_fails_iff.mp ⟨fault, hfault⟩
    rcases List.mem_pair.mp he with rfl | rfl
    · rw [firstEntry, hentry] at hfails
      cases hfails
    · rw [secondEntry, hentry'] at hfails
      cases hfails
  · have hs1 : s 1 = some key' := @lookup_of_last [firstEntry] _ _ _ _ hentry' hs
    have ht1 : t 1 = some key := @lookup_of_last [secondEntry] _ _ _ _ hentry ht
    have heq : key' = key := load_inj hs1 ht1 (hload 1)
    rw [heq, hkey] at hkey'
    exact absurd hkey' (by decide)

end Napqes.Rust
