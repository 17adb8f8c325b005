import Napqes.Basic
import Napqes.Misc.Generator

/-!
# Sub-nonces of a v8 stream

Each chunk of a stream is masked under a sub-nonce that depends on its index alone. Two chunks with
one index would share keystream and addends. A run of an encryptor is looked at together with the
derivations it makes: the derivation is a generator that hands out the index it is given, and the
run that calls it hands out the indices of all its calls.
-/

namespace Napqes

/-- A derivation of a sub-nonce: the chunk it is made for, counted from 0 without a bound, and the
index it is given. -/
structure SubNonceUse where
  chunk : Nat
  idx : Nat
  deriving DecidableEq, Repr

/-- What the sub-nonce of a chunk is derived from. -/
def subNonceMessage (nonce : List UInt8) (idx : Nat) : List UInt8 :=
  0x0E :: (nonce ++ beBytes 4 idx)

/-- Different indices have different messages. -/
theorem subNonceMessage_inj {nonce : List UInt8} {i j : Nat} (hi : i < 2 ^ 32) (hj : j < 2 ^ 32)
    (h : subNonceMessage nonce i = subNonceMessage nonce j) : i = j :=
  beBytes_inj (w := 4) hi hj (List.append_cancel_left (List.cons.inj h).2)

/-- A derivation, with the chunk it is made for and the index it is given, hands out both. Its
sub-nonce, `bytes` of its result, is the beginning of a digest under `key` that this index alone
determines. -/
structure HandsOutIndex {ε α : Type} (H : Hmac) (key nonce : List UInt8) (bytes : α → List UInt8)
    (derive : Nat → Nat → Gen ε SubNonceUse α) : Prop where
  derives : ∀ chunk idx, idx < 2 ^ 32 → ∃ subNonce,
    derive chunk idx = ⟨[⟨chunk, idx⟩], .ok subNonce⟩ ∧
      bytes subNonce = (H key (subNonceMessage nonce idx)).toList.take 16
  injective : ∀ i < 2 ^ 32, ∀ j < 2 ^ 32,
    subNonceMessage nonce i = subNonceMessage nonce j → i = j

/-- Different chunks get different indices. -/
def DistinctIndices (uses : List SubNonceUse) : Prop :=
  ∀ u ∈ uses, ∀ v ∈ uses, u.chunk ≠ v.chunk → u.idx ≠ v.idx

/-- Indices that follow the count of the chunks are distinct. -/
theorem distinctIndices_of_eq {uses : List SubNonceUse} (h : ∀ u ∈ uses, u.idx = u.chunk) :
    DistinctIndices uses := by
  intro u hu v hv hne
  rw [h u hu, h v hv]
  exact hne

theorem distinctIndices_nil : DistinctIndices [] := distinctIndices_of_eq (by simp)

/-! ## Every chunk -/

/-- A run that starts at chunk `m` makes a derivation for every chunk before the one it ends at; its
result, if it has one, satisfies `Q`. -/
def UsesCover {ε α : Type} (run : Gen ε SubNonceUse α) (m : Nat) (ends : α → Nat) (Q : α → Prop) :
    Prop :=
  ∀ a, run.outcome = .ok a →
    Q a ∧ ∀ c, m ≤ c → c < ends a → ∃ u ∈ run.yielded, u.chunk = c

namespace UsesCover

variable {ε α β : Type} {m : Nat} {mid : α → Nat} {ends : β → Nat} {Q : α → Prop} {R : β → Prop}

theorem pure {a : α} (hends : mid a ≤ m) (hQ : Q a) :
    UsesCover (pure a : Gen ε SubNonceUse α) m mid Q := by
  intro a' ha
  obtain rfl : a = a' := Except.ok.inj ha
  exact ⟨hQ, fun c hm hc => by omega⟩

/-- A stage that derives nothing ends where it starts. -/
theorem lift {x : Except ε α} (h : ∀ a, x = .ok a → Q a) :
    UsesCover (liftM x : Gen ε SubNonceUse α) m (fun _ => m) Q := by
  intro a ha
  exact ⟨h a ha, fun c hm hc => absurd hm (Nat.not_le_of_lt hc)⟩

/-- Nothing is asked of a run that ends where it starts. -/
theorem of_le {run : Gen ε SubNonceUse α} (h : ∀ a, mid a ≤ m) :
    UsesCover run m mid (fun _ => True) :=
  fun a _ => ⟨trivial, fun _ hm hc => absurd hm (Nat.not_le_of_lt (Nat.lt_of_lt_of_le hc (h a)))⟩

/-- A run that makes a derivation for its chunk ends at the next one. -/
theorem of_mem {run : Gen ε SubNonceUse α} {idx : Nat} (h : ⟨m, idx⟩ ∈ run.yielded) :
    UsesCover run m (fun _ => m + 1) (fun _ => True) := by
  intro a _
  exact ⟨trivial, fun c hm hc => ⟨_, h, Nat.le_antisymm hm (Nat.le_of_lt_succ hc)⟩⟩

/-- A run in two stages, where the second starts at the chunk at which the first one ends. -/
theorem bind {x : Gen ε SubNonceUse α} {f : α → Gen ε SubNonceUse β} (hx : UsesCover x m mid Q)
    (hf : ∀ a, Q a → UsesCover (f a) (mid a) ends R) : UsesCover (x >>= f) m ends R := by
  intro b hb
  obtain ⟨a, ha, hb⟩ := Gen.bind_outcome_eq_ok.mp hb
  obtain ⟨hQ, hfirst⟩ := hx a ha
  obtain ⟨hR, hrest⟩ := hf a hQ b hb
  rw [Gen.bind_of_ok ha]
  refine ⟨hR, fun c hm hc => ?_⟩
  by_cases hlt : c < mid a
  · obtain ⟨u, hu, huc⟩ := hfirst c hm hlt
    exact ⟨u, List.mem_append_left _ hu, huc⟩
  · obtain ⟨u, hu, huc⟩ := hrest c (Nat.le_of_not_lt hlt) hc
    exact ⟨u, List.mem_append_right _ hu, huc⟩

end UsesCover

/-! ## The number of chunks -/

/-- The number of chunks of `n` codepoints: `ceil(n / f)`. -/
def chunkCount (n f : Nat) : Nat := (n + f - 1) / f

/-- `ceil`, from the number of full chunks and the length of what follows them. -/
theorem chunkCount_eq {f full rest : Nat} (hrest : rest < f) :
    chunkCount (full * f + rest) f = full + if rest = 0 then 0 else 1 := by
  rw [chunkCount]
  split
  case isTrue hzero =>
    rw [hzero, Nat.add_zero, Nat.add_sub_assoc (by omega), Nat.mul_comm,
      Nat.mul_add_div (by omega), Nat.div_eq_of_lt (by omega)]
  case isFalse hpos =>
    rw [show full * f + rest + f - 1 = f * (full + 1) + (rest - 1) by
        rw [Nat.mul_add, Nat.mul_comm f full]
        omega,
      Nat.mul_add_div (by omega), Nat.div_eq_of_lt (by omega)]

/-- A chunk that has begun before the `n`th codepoint counts. -/
theorem lt_chunkCount {c n f : Nat} (hf : 0 < f) (h : c * f < n) : c < chunkCount n f := by
  rw [chunkCount, Nat.lt_iff_add_one_le, Nat.le_div_iff_mul_le hf, Nat.add_mul]
  omega

/-- After `n` codepoints: `chunk` full chunks, and `rest` codepoints in the buffer. -/
structure ChunksAfter (f n chunk rest : Nat) : Prop where
  rest_lt : rest < f
  count : n = chunk * f + rest

namespace ChunksAfter

variable {f n chunk rest : Nat}

theorem zero (hf : 1 ≤ f) : ChunksAfter f 0 0 0 := ⟨hf, by simp⟩

/-- One more codepoint fills the buffer. -/
theorem full (h : ChunksAfter f n chunk rest) (hfull : f ≤ rest + 1) :
    ChunksAfter f (n + 1) (chunk + 1) (rest + 1 - f) := by
  have hlt := h.rest_lt
  have hcount := h.count
  refine ⟨by omega, ?_⟩
  rw [Nat.add_mul]
  omega

/-- One more codepoint leaves room. -/
theorem push (h : ChunksAfter f n chunk rest) (hroom : rest + 1 < f) :
    ChunksAfter f (n + 1) chunk (rest + 1) := ⟨hroom, by rw [h.count, Nat.add_assoc]⟩

theorem chunkCount (h : ChunksAfter f n chunk rest) :
    Napqes.chunkCount n f = chunk + if rest = 0 then 0 else 1 := by
  rw [h.count]
  exact chunkCount_eq h.rest_lt

end ChunksAfter

end Napqes
