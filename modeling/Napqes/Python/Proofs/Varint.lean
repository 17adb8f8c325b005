import Napqes.Python.Proofs.StreamV7

/-!
# The LEB128 coders of Python

`_b128_decode_tokens` reads a whole byte string; the stream decoders append one byte at a time to a
buffer and empty it when a token is complete. `varintBytes` is what they have in common: the tokens
completed by some bytes, and the bytes of a token that is not complete yet.
-/

namespace Napqes.Python

/-! ## Byte by byte -/

/-- The tokens that `bs` completes when `buf` is the beginning of the first one, and what is left
in the buffer. -/
def varintBytes : List UInt8 → List UInt8 → List Nat × List UInt8
  | buf, [] => ([], buf)
  | buf, b :: bs =>
      if b &&& 0x80 = 0 then
        (varintValue (buf ++ [b]) :: (varintBytes [] bs).1, (varintBytes [] bs).2)
      else varintBytes (buf ++ [b]) bs

/-- The same over chunks, with the buffer carried from one to the next. -/
def varintChunks : List UInt8 → List (List UInt8) → List Nat × List UInt8
  | buf, [] => ([], buf)
  | buf, chunk :: chunks =>
      ((varintBytes buf chunk).1 ++ (varintChunks (varintBytes buf chunk).2 chunks).1,
        (varintChunks (varintBytes buf chunk).2 chunks).2)

theorem varintBytes_append (buf bs bs' : List UInt8) :
    varintBytes buf (bs ++ bs') =
      ((varintBytes buf bs).1 ++ (varintBytes (varintBytes buf bs).2 bs').1,
        (varintBytes (varintBytes buf bs).2 bs').2) := by
  induction bs generalizing buf with
  | nil => rfl
  | cons b bs ih =>
      rw [List.cons_append, varintBytes, varintBytes]
      split
      case isTrue => rw [ih, List.cons_append]
      case isFalse => exact ih _

/-- Where the chunks end makes no difference. -/
theorem varintChunks_eq (buf : List UInt8) (chunks : List (List UInt8)) :
    varintChunks buf chunks = varintBytes buf chunks.flatten := by
  induction chunks generalizing buf with
  | nil => rfl
  | cons chunk chunks ih => rw [varintChunks, List.flatten_cons, varintBytes_append, ih]

/-- Nothing is left of bytes that end with a complete token. -/
theorem varintBytes_rest_eq_nil_iff {buf bs : List UInt8} (h : bs ≠ []) :
    (varintBytes buf bs).2 = [] ↔ ∃ front last, bs = front ++ [last] ∧ last &&& 0x80 = 0 := by
  obtain ⟨front, last, rfl⟩ := List.eq_nil_or_concat bs |>.resolve_left h
  rw [List.concat_eq_append, varintBytes_append]
  simp only [varintBytes]
  constructor
  · intro hnil
    split at hnil
    case isTrue hlast => exact ⟨front, last, rfl, hlast⟩
    case isFalse => simp at hnil
  · rintro ⟨front', last', heq, hlast⟩
    obtain ⟨-, heq⟩ := List.append_inj' heq rfl
    obtain rfl := List.singleton_injective heq
    rw [if_pos hlast]

/-! ## `_b128_encode_tokens` -/

theorem b128EncodeOnto_eq (out : List UInt8) (n : Nat) :
    b128EncodeOnto out n = out ++ b128EncodeToken n := by
  induction n using b128EncodeToken.induct generalizing out with
  | case1 n hlong ih =>
      rw [b128EncodeOnto, b128EncodeToken, if_pos hlong, if_pos hlong, ih, List.append_assoc]
      rfl
  | case2 n hshort => rw [b128EncodeOnto, b128EncodeToken, if_neg hshort, if_neg hshort]

/-- The tokens one after the other. -/
theorem b128EncodeTokens_eq (ts : List Nat) : b128EncodeTokens ts = ts.flatMap b128EncodeToken := by
  have hfold : ∀ out, ts.foldl b128EncodeOnto out = out ++ ts.flatMap b128EncodeToken := by
    induction ts with
    | nil => simp
    | cons n ts ih =>
        intro out
        rw [List.foldl_cons, b128EncodeOnto_eq, ih, List.flatMap_cons, List.append_assoc]
  exact hfold []

theorem varintBytes_continued {front : List UInt8} (h : ∀ b ∈ front, b &&& 0x80 ≠ 0)
    (buf bs : List UInt8) : varintBytes buf (front ++ bs) = varintBytes (buf ++ front) bs := by
  induction front generalizing buf with
  | nil => rw [List.nil_append, List.append_nil]
  | cons b front ih =>
      rw [List.cons_append, varintBytes, if_neg (h b (List.mem_cons_self ..)),
        ih fun c hc => h c (List.mem_cons_of_mem _ hc), List.append_assoc]
      rfl

/-- Encoded tokens are read back. -/
theorem varintBytes_flatMap_b128EncodeToken (ts : List Nat) :
    varintBytes [] (ts.flatMap b128EncodeToken) = (ts, []) := by
  induction ts with
  | nil => rfl
  | cons n ts ih =>
      have hvalue := varintValue_b128EncodeToken n
      obtain ⟨front, last, heq, hfront, hlast⟩ := b128EncodeToken_split n
      rw [heq] at hvalue
      rw [List.flatMap_cons, heq, List.append_assoc, varintBytes_continued hfront,
        List.singleton_append, varintBytes, if_pos hlast, List.nil_append, hvalue, ih]

/-! ## `_b128_decode_tokens` -/

/-- Value and shift after the bytes of a buffer. -/
def varintFold (buf : List UInt8) : Nat × Nat :=
  buf.foldl (fun (value, shift) vb => (value ||| ((vb.toNat &&& 0x7F) <<< shift), shift + 7)) (0, 0)

theorem varintFold_concat (buf : List UInt8) (b : UInt8) :
    varintFold (buf ++ [b]) =
      ((varintFold buf).1 ||| ((b.toNat &&& 0x7F) <<< (varintFold buf).2),
        (varintFold buf).2 + 7) := by
  rw [varintFold, List.foldl_append]
  rfl

theorem b128DecodeLoop_of_ne_nil {data : List UInt8} (h : data ≠ []) (tokens : List Nat) :
    b128DecodeLoop data tokens =
      b128DecodeValue 0 0 data >>= fun p => b128DecodeLoop p.2 (tokens ++ [p.1]) := by
  rw [b128DecodeLoop, if_neg (by simpa using h)]
  split
  case h_1 e he =>
    rw [he]
    rfl
  case h_2 value rest he => rw [he, ok_bind]

/-- The rest of `_b128_decode_tokens` inside a token: it reads the tokens that the bytes complete,
and fails when they end inside one. -/
theorem b128DecodeLoop_inside (bs buf : List UInt8) (tokens : List Nat) (h : buf ++ bs ≠ []) :
    (b128DecodeValue (varintFold buf).1 (varintFold buf).2 bs >>= fun p =>
      b128DecodeLoop p.2 (tokens ++ [p.1])) =
      if (varintBytes buf bs).2 = [] then .ok (tokens ++ (varintBytes buf bs).1)
      else raise (.indexError "index out of range") := by
  induction bs generalizing buf tokens with
  | nil =>
      rw [List.append_nil] at h
      rw [varintBytes, if_neg h, b128DecodeValue]
      rfl
  | cons b bs ih =>
      rw [b128DecodeValue, varintBytes]
      by_cases hclear : b &&& 0x80 = 0
      · simp only [if_pos hclear, ok_bind]
        have hvalue : (varintFold buf).1 ||| ((b.toNat &&& 0x7F) <<< (varintFold buf).2) =
            varintValue (buf ++ [b]) := (congrArg Prod.fst (varintFold_concat buf b)).symm
        rw [hvalue]
        by_cases hend : bs = []
        · rw [hend, b128DecodeLoop]
          rfl
        · rw [b128DecodeLoop_of_ne_nil hend]
          have hrest := ih [] (tokens ++ [varintValue (buf ++ [b])]) hend
          rw [List.append_assoc tokens, List.singleton_append] at hrest
          exact hrest
      · simp only [if_neg hclear]
        have hrest := ih (buf ++ [b]) tokens (by simp)
        rw [varintFold_concat] at hrest
        exact hrest

/-- `_b128_decode_tokens` reads complete tokens, and fails on bytes that end inside one. -/
theorem b128DecodeTokens_eq (data : List UInt8) :
    b128DecodeTokens data =
      if (varintBytes [] data).2 = [] then .ok (varintBytes [] data).1
      else raise (.indexError "index out of range") := by
  rw [b128DecodeTokens]
  by_cases h : data = []
  · rw [h, b128DecodeLoop]
    rfl
  · rw [b128DecodeLoop_of_ne_nil h]
    exact b128DecodeLoop_inside data [] [] h

/-! ## The decoding loop of the streams -/

section
variable (H : Hmac) (noise : Noise) (key : List Nat) (kb nonce : List UInt8)

/-- What the loop does with the values of the tokens, one after the other. -/
def decodeTokens : List Nat → Decoder → Gen PyErr Nat Decoder
  | [], st => return st
  | value :: values, st => do
      let st ← decodeToken H noise key kb nonce value st.ctPos st.realIdx
      decodeTokens values st

/-- The decoding loop over chunks, as the stream decryptors run it. -/
def decodeChunks : List (List UInt8) → Decoder → Gen PyErr Nat Decoder
  | [], st => return st
  | chunk :: chunks, st => do
      let st ← decodeBytes H noise key kb nonce chunk st
      decodeChunks chunks st

end

variable {H : Hmac} {noise : Noise} {key : List Nat} {kb nonce : List UInt8}

theorem decodeChunks_eq (chunks : List (List UInt8)) (st : Decoder) :
    decodeChunks H noise key kb nonce chunks st =
      decodeBytes H noise key kb nonce chunks.flatten st := by
  induction chunks generalizing st with
  | nil => rfl
  | cons chunk chunks ih =>
      rw [decodeChunks, List.flatten_cons, decodeBytes_append]
      exact congrArg _ (funext ih)

theorem decodeByte_of_clear {b : UInt8} (h : b &&& 0x80 = 0) (buf : List UInt8) (pos idx : Nat) :
    decodeByte H noise key kb nonce ⟨buf, pos, idx⟩ b =
      decodeToken H noise key kb nonce (varintValue (buf ++ [b])) pos idx := if_pos h

theorem decodeByte_of_set {b : UInt8} (h : b &&& 0x80 ≠ 0) (buf : List UInt8) (pos idx : Nat) :
    decodeByte H noise key kb nonce ⟨buf, pos, idx⟩ b = ⟨[], .ok ⟨buf ++ [b], pos, idx⟩⟩ :=
  if_neg h

/-- A token leaves nothing in the buffer. -/
theorem varintBuf_of_decodeToken {value pos idx : Nat} {st : Decoder}
    (h : (decodeToken H noise key kb nonce value pos idx).outcome = .ok st) :
    st.varintBuf = [] := by
  rw [decodeToken] at h
  obtain ⟨isNoise, -, h⟩ := Gen.bind_outcome_eq_ok.mp h
  split at h
  · obtain ⟨k, -, h⟩ := Gen.bind_outcome_eq_ok.mp h
    obtain ⟨addend, -, h⟩ := Gen.bind_outcome_eq_ok.mp h
    obtain ⟨c, -, h⟩ := Gen.bind_outcome_eq_ok.mp h
    obtain ⟨-, -, h⟩ := Gen.bind_outcome_eq_ok.mp h
    rw [← Except.ok.inj h]
  · rw [← Except.ok.inj h]

theorem varintBuf_of_decodeTokens {values : List Nat} {pos idx : Nat} {st : Decoder}
    (h : (decodeTokens H noise key kb nonce values ⟨[], pos, idx⟩).outcome = .ok st) :
    st.varintBuf = [] := by
  induction values generalizing pos idx with
  | nil => rw [← Except.ok.inj h]
  | cons value values ih =>
      rw [decodeTokens] at h
      obtain ⟨⟨left, pos', idx'⟩, htoken, h⟩ := Gen.bind_outcome_eq_ok.mp h
      obtain rfl : left = [] := varintBuf_of_decodeToken htoken
      exact ih h

/-- Only the values of the completed tokens matter to the loop. -/
theorem decodeBytes_eq_decodeTokens (bs buf : List UInt8) (pos idx : Nat) :
    decodeBytes H noise key kb nonce bs ⟨buf, pos, idx⟩ =
      decodeTokens H noise key kb nonce (varintBytes buf bs).1 ⟨[], pos, idx⟩ >>= fun st =>
        ⟨[], .ok { st with varintBuf := (varintBytes buf bs).2 }⟩ := by
  induction bs generalizing buf pos idx with
  | nil => rfl
  | cons b bs ih =>
      rw [decodeBytes, varintBytes]
      by_cases hclear : b &&& 0x80 = 0
      · rw [decodeByte_of_clear hclear, if_pos hclear, decodeTokens, Gen.bind_assoc]
        cases htoken :
            (decodeToken H noise key kb nonce (varintValue (buf ++ [b])) pos idx).outcome with
        | error e => rw [Gen.bind_of_error htoken, Gen.bind_of_error htoken]
        | ok st =>
            obtain ⟨left, pos', idx'⟩ := st
            obtain rfl : left = [] := varintBuf_of_decodeToken htoken
            rw [Gen.bind_of_ok htoken, Gen.bind_of_ok htoken, ih]
      · rw [decodeByte_of_set hclear, if_neg hclear, Gen.ok_bind, ih]
        rfl

theorem decodeBytes_of_complete {bs : List UInt8} (h : (varintBytes [] bs).2 = [])
    (pos idx : Nat) :
    decodeBytes H noise key kb nonce bs ⟨[], pos, idx⟩ =
      decodeTokens H noise key kb nonce (varintBytes [] bs).1 ⟨[], pos, idx⟩ := by
  rw [decodeBytes_eq_decodeTokens, h]
  cases hout :
      (decodeTokens H noise key kb nonce (varintBytes [] bs).1 ⟨[], pos, idx⟩).outcome with
  | error e =>
      rw [Gen.bind_of_error hout]
      exact Gen.ext rfl hout.symm
  | ok st =>
      obtain ⟨left, pos', idx'⟩ := st
      obtain rfl : left = [] := varintBuf_of_decodeTokens hout
      rw [Gen.bind_of_ok hout]
      exact Gen.ext (List.append_nil _) hout.symm

/-! ## Three decoders and two encoders of one format -/

/-- What is encoded is decoded again, one token at a time gives the same bytes, and on bytes that
end with a complete token the stream decoders see, however the bytes arrive, the values that
`_b128_decode_tokens` returns. -/
theorem b128_coders_agree :
    (∀ ts : List Nat, b128DecodeTokens (b128EncodeTokens ts) = .ok ts) ∧
    (∀ ts : List Nat, ts.flatMap b128EncodeToken = b128EncodeTokens ts) ∧
    ∀ (front : List UInt8) (last : UInt8), last &&& 0x80 = 0 →
      ∃ ts, b128DecodeTokens (front ++ [last]) = .ok ts ∧
        ∀ chunks : List (List UInt8), chunks.flatten = front ++ [last] →
          varintChunks [] chunks = (ts, []) ∧
          ∀ (H : Hmac) (noise : Noise) (key : List Nat) (kb nonce : List UInt8) (pos idx : Nat),
            decodeChunks H noise key kb nonce chunks ⟨[], pos, idx⟩ =
              decodeTokens H noise key kb nonce ts ⟨[], pos, idx⟩ := by
  refine ⟨?_, fun ts => (b128EncodeTokens_eq ts).symm, ?_⟩
  · intro ts
    rw [b128EncodeTokens_eq, b128DecodeTokens_eq, varintBytes_flatMap_b128EncodeToken, if_pos rfl]
  · intro front last hlast
    have hrest : (varintBytes [] (front ++ [last])).2 = [] :=
      (varintBytes_rest_eq_nil_iff (by simp)).mpr ⟨front, last, rfl, hlast⟩
    refine ⟨(varintBytes [] (front ++ [last])).1, ?_, ?_⟩
    · rw [b128DecodeTokens_eq, if_pos hrest]
    · intro chunks hchunks
      refine ⟨?_, ?_⟩
      · rw [varintChunks_eq, hchunks]
        exact Prod.ext rfl hrest
      · intro H noise key kb nonce pos idx
        rw [decodeChunks_eq, hchunks, decodeBytes_of_complete hrest]

theorem b128_coders_agree_on_two_chunks :
    b128DecodeTokens [0x81, 0x01, 0x05] = .ok [129, 5] ∧
      varintChunks [] [[0x81], [], [0x01, 0x05]] = ([129, 5], []) := by
  obtain ⟨ts, hdecode, hchunks⟩ := b128_coders_agree.2.2 [0x81, 0x01] 0x05 (by decide)
  have h := (hchunks [[0x81], [], [0x01, 0x05]] rfl).1
  obtain rfl : [129, 5] = ts := congrArg Prod.fst h
  exact ⟨hdecode, h⟩

end Napqes.Python
