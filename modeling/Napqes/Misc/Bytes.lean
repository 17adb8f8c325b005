import Mathlib.Data.List.TakeDrop
import Mathlib.Tactic

/-!
# Byte strings

Big-endian integer fields, fixed-size byte arrays, XOR masking and the injectivity of
length-prefixed fields. Byte strings are `List UInt8`; a field of `w` bytes holds a number
below `256 ^ w`, and writing a larger number keeps its low `w` bytes.
-/

namespace Napqes

/-! ## Big-endian fields -/

/-- The `w`-byte big-endian field of `n`; a number of more than `w` bytes is truncated. -/
def beBytes : Nat → Nat → List UInt8
  | 0, _ => []
  | w + 1, n => UInt8.ofNat (n / 256 ^ w) :: beBytes w n

/-- The number a big-endian byte string denotes. -/
def beNat : List UInt8 → Nat
  | [] => 0
  | b :: bs => b.toNat * 256 ^ bs.length + beNat bs

@[simp] theorem length_beBytes (w n : Nat) : (beBytes w n).length = w := by
  induction w with
  | zero => rfl
  | succ w ih => simp [beBytes, ih]

theorem beNat_lt (bs : List UInt8) : beNat bs < 256 ^ bs.length := by
  induction bs with
  | nil => simp [beNat]
  | cons b bs ih =>
      have hb : b.toNat + 1 ≤ 256 := b.toNat_lt
      have hmul := Nat.mul_le_mul_right (256 ^ bs.length) hb
      simp only [beNat, List.length_cons, pow_succ]
      linarith

/-- Reading back a written field gives the number modulo the field's range. -/
theorem beNat_beBytes (w n : Nat) : beNat (beBytes w n) = n % 256 ^ w := by
  induction w with
  | zero => simp [beBytes, beNat, Nat.mod_one]
  | succ w ih =>
      have hbyte : (UInt8.ofNat (n / 256 ^ w)).toNat = n / 256 ^ w % 256 := rfl
      simp only [beBytes, beNat, length_beBytes, ih, hbyte]
      rw [Nat.pow_succ, Nat.mod_mul]
      ring

theorem beNat_beBytes_of_lt {w n : Nat} (h : n < 256 ^ w) : beNat (beBytes w n) = n := by
  rw [beNat_beBytes, Nat.mod_eq_of_lt h]

theorem beBytes_add_mul (w n m : Nat) : beBytes w (n + 256 ^ w * m) = beBytes w n := by
  induction w generalizing m with
  | zero => rfl
  | succ w ih =>
      have hpos : 0 < 256 ^ w := Nat.pow_pos (by decide)
      have hsplit : n + 256 ^ (w + 1) * m = n + 256 ^ w * (256 * m) := by ring
      simp only [beBytes, List.cons.injEq]
      refine ⟨?_, by rw [hsplit, ih]⟩
      rw [hsplit, Nat.add_mul_div_left _ _ hpos]
      apply UInt8.toNat_inj.mp
      simp

/-- A field read from bytes writes back the same bytes. -/
theorem beBytes_beNat (bs : List UInt8) : beBytes bs.length (beNat bs) = bs := by
  induction bs with
  | nil => rfl
  | cons b bs ih =>
      have hpos : 0 < 256 ^ bs.length := Nat.pow_pos (by decide)
      have hcomm : b.toNat * 256 ^ bs.length + beNat bs =
          beNat bs + 256 ^ bs.length * b.toNat := by ring
      simp only [beNat, List.length_cons, beBytes, List.cons.injEq]
      refine ⟨?_, by rw [hcomm, beBytes_add_mul, ih]⟩
      rw [hcomm, Nat.add_mul_div_left _ _ hpos, Nat.div_eq_of_lt (beNat_lt bs)]
      simp

theorem beBytes_beNat_of_length {w : Nat} {bs : List UInt8} (h : bs.length = w) :
    beBytes w (beNat bs) = bs := by
  subst h
  exact beBytes_beNat bs

theorem beBytes_inj {w n m : Nat} (hn : n < 256 ^ w) (hm : m < 256 ^ w)
    (h : beBytes w n = beBytes w m) : n = m := by
  rw [← beNat_beBytes_of_lt hn, ← beNat_beBytes_of_lt hm, h]

theorem beBytes_mod_word (n : Nat) : beBytes 8 (n % 2 ^ 64) = beBytes 8 n := by
  have h := beBytes_add_mul 8 (n % 2 ^ 64) (n / 2 ^ 64)
  rw [show 256 ^ 8 = 2 ^ 64 by decide, Nat.mod_add_div] at h
  exact h.symm

/-- A field shows a number modulo its range. -/
theorem beBytes_eq_iff {w m n : Nat} : beBytes w m = beBytes w n ↔ m % 256 ^ w = n % 256 ^ w := by
  constructor
  · intro h
    rw [← beNat_beBytes, ← beNat_beBytes, h]
  · intro h
    rw [← Nat.mod_add_div m (256 ^ w), ← Nat.mod_add_div n (256 ^ w), beBytes_add_mul,
      beBytes_add_mul, h]

/-- The low byte of a field stands last. -/
theorem beBytes_succ_last (w n : Nat) :
    beBytes (w + 1) n = beBytes w (n / 256) ++ [UInt8.ofNat n] := by
  induction w with
  | zero => simp [beBytes]
  | succ w ih =>
      rw [beBytes, ih, beBytes, Nat.div_div_eq_div_mul, ← Nat.pow_succ', List.cons_append]

/-- Digits below a shifted number are added to it. -/
theorem shiftLeft_or_eq {a b i : Nat} (h : b < 2 ^ i) : a <<< i ||| b = a * 2 ^ i + b := by
  rw [← Nat.shiftLeft_add_eq_or_of_lt h, Nat.shiftLeft_eq]

/-- Left fold of the shift-and-or step, the form in which loops read a field. -/
theorem foldl_shift_or_eq_beNat (bs : List UInt8) (acc : Nat) :
    bs.foldl (fun v b => v <<< 8 ||| b.toNat) acc = acc * 256 ^ bs.length + beNat bs := by
  induction bs generalizing acc with
  | nil => simp [beNat]
  | cons b bs ih =>
      have hb : b.toNat < 2 ^ 8 := b.toNat_lt
      rw [List.foldl_cons, ih, shiftLeft_or_eq hb]
      simp only [beNat, List.length_cons, pow_succ]
      ring

/-! ## Fixed-size byte arrays -/

/-- A byte array of exactly `n` bytes. -/
structure FixedBytes (n : Nat) where
  toList : List UInt8
  length_toList : toList.length = n
  deriving DecidableEq

namespace FixedBytes

variable {n : Nat}

attribute [simp] length_toList

instance : CoeHead (FixedBytes n) (List UInt8) := ⟨toList⟩

theorem ext {a b : FixedBytes n} (h : a.toList = b.toList) : a = b := by
  cases a
  cases b
  simpa using h

/-- Copy a slice into a zeroed array of `n` bytes. -/
def ofList (n : Nat) (bs : List UInt8) : FixedBytes n :=
  ⟨bs.takeD n 0, List.takeD_length n bs 0⟩

theorem toList_ofList {bs : List UInt8} (h : bs.length = n) : (ofList n bs).toList = bs := by
  show bs.takeD n 0 = bs
  rw [List.takeD_eq_take 0 (Nat.le_of_eq h.symm), ← h, List.take_length]

@[simp] theorem ofList_toList (a : FixedBytes n) : ofList n a.toList = a :=
  ext (toList_ofList a.length_toList)

/-- The leading `m` bytes of an array. -/
def take (a : FixedBytes n) (m : Nat) (h : m ≤ n) : FixedBytes m :=
  ⟨a.toList.take m, by simp [h]⟩

end FixedBytes

/-! ## Fixed-width fields -/

/-- The first `n` pieces of `w` bytes, as `chunks_exact` yields them. -/
def chunksExact (w : Nat) : Nat → List UInt8 → List (List UInt8)
  | 0, _ => []
  | n + 1, bs => bs.take w :: chunksExact w n (bs.drop w)

@[simp] theorem length_chunksExact (w n : Nat) (bs : List UInt8) :
    (chunksExact w n bs).length = n := by
  induction n generalizing bs with
  | zero => rfl
  | succ n ih => simp [chunksExact, ih]

/-- Piece number `i` starts at byte `i * w`. -/
theorem getElem?_chunksExact {w n i : Nat} {bs : List UInt8} (h : i < n) :
    (chunksExact w n bs)[i]? = some ((bs.drop (i * w)).take w) := by
  induction n generalizing i bs with
  | zero => omega
  | succ n ih =>
      cases i with
      | zero => simp [chunksExact]
      | succ i =>
          rw [chunksExact, List.getElem?_cons_succ, ih (by omega), List.drop_drop,
            Nat.succ_mul, Nat.add_comm]

theorem length_le_of_mem_chunksExact {w n : Nat} {bs c : List UInt8} (h : c ∈ chunksExact w n bs) :
    c.length ≤ w := by
  induction n generalizing bs with
  | zero => cases h
  | succ n ih =>
      rcases List.mem_cons.mp h with rfl | h
      · exact List.length_take_le w bs
      · exact ih h

theorem length_flatMap_beBytes (w : Nat) (ns : List Nat) :
    (ns.flatMap (beBytes w)).length = ns.length * w := by
  induction ns with
  | nil => simp
  | cons n ns ih => simp [ih, Nat.add_mul, Nat.add_comm]

/-- Cutting a sequence of written fields and reading each gives the numbers back. -/
theorem map_beNat_chunksExact (w : Nat) (ns : List Nat) (h : ∀ n ∈ ns, n < 256 ^ w) :
    (chunksExact w ns.length (ns.flatMap (beBytes w))).map beNat = ns := by
  induction ns with
  | nil => rfl
  | cons n ns ih =>
      have hfield : beNat (beBytes w n) = n := beNat_beBytes_of_lt (h n (by simp))
      have hrest := ih fun m hm => h m (by simp [hm])
      simp only [List.length_cons, List.flatMap_cons, chunksExact, List.map_cons]
      rw [List.take_left' (length_beBytes w n), List.drop_left' (length_beBytes w n), hfield,
        hrest]

/-! ## XOR masking -/

/-- Byte-wise XOR, cut at the shorter operand. -/
def xorBytes (a b : List UInt8) : List UInt8 := List.zipWith (· ^^^ ·) a b

@[simp] theorem length_xorBytes (a b : List UInt8) :
    (xorBytes a b).length = min a.length b.length := by
  simp [xorBytes]

/-- The mask matters only as far as the operand reaches. -/
theorem xorBytes_take (a b : List UInt8) : xorBytes a (b.take a.length) = xorBytes a b := by
  induction a generalizing b with
  | nil => simp [xorBytes]
  | cons x xs ih =>
      cases b with
      | nil => simp
      | cons y ys =>
          have hrest := ih ys
          simp only [xorBytes] at hrest
          simp only [xorBytes, List.length_cons, List.take_succ_cons, List.zipWith_cons_cons, hrest]

/-- Masking twice with the same, long enough, mask is the identity. -/
theorem xorBytes_cancel (a b : List UInt8) (h : a.length ≤ b.length) :
    xorBytes (xorBytes a b) b = a := by
  induction a generalizing b with
  | nil => simp [xorBytes]
  | cons x xs ih =>
      cases b with
      | nil => simp at h
      | cons y ys =>
          have hxor : (x ^^^ y) ^^^ y = x := by
            rw [UInt8.xor_assoc, UInt8.xor_self, UInt8.xor_zero]
          have hrest := ih ys (by simpa using h)
          simp only [xorBytes] at hrest
          simp only [xorBytes, List.zipWith_cons_cons, hxor, hrest]

/-! ## Counter-mode streams -/

/-- The first `len` bytes of the concatenated blocks numbered from `0`. -/
def counterStream {w : Nat} (block : Nat → FixedBytes w) (len : Nat) : List UInt8 :=
  ((List.range ((len + w - 1) / w)).flatMap fun i => (block i).toList).take len

theorem length_flatMap_blocks {w : Nat} (block : Nat → FixedBytes w) (is : List Nat) :
    (is.flatMap fun i => (block i).toList).length = is.length * w := by
  induction is with
  | nil => simp
  | cons i is ih => simp [ih, Nat.add_mul, Nat.add_comm]

/-- The blocks up to the rounded-up count cover the requested length. -/
theorem le_ceilDiv_mul {w : Nat} (hw : 0 < w) (len : Nat) : len ≤ (len + w - 1) / w * w := by
  have := Nat.lt_mul_div_succ (len + w - 1) hw
  rw [Nat.mul_add, Nat.mul_comm] at this
  omega

theorem length_counterStream {w : Nat} (hw : 0 < w) (block : Nat → FixedBytes w) (len : Nat) :
    (counterStream block len).length = len := by
  rw [counterStream, List.length_take, length_flatMap_blocks, List.length_range]
  exact Nat.min_eq_left (le_ceilDiv_mul hw len)

/-! ## Concatenated fields -/

/-- A field of known width in front of the rest of a string is determined by the string. -/
theorem append_inj_of_length {a b c d : List UInt8} {w : Nat} (ha : a.length = w)
    (hb : b.length = w) (h : a ++ c = b ++ d) : a = b ∧ c = d :=
  List.append_inj h (ha.trans hb.symm)

/-- A big-endian field in front of the rest of a string is determined by the string. -/
theorem beBytes_append_inj {w n m : Nat} {c d : List UInt8} (hn : n < 256 ^ w)
    (hm : m < 256 ^ w) (h : beBytes w n ++ c = beBytes w m ++ d) : n = m ∧ c = d := by
  obtain ⟨hfield, hrest⟩ := append_inj_of_length (length_beBytes w n) (length_beBytes w m) h
  exact ⟨beBytes_inj hn hm hfield, hrest⟩

/-- A length-prefixed byte string followed by arbitrary bytes splits in one way only. -/
theorem lenPrefixed_append_inj {w : Nat} {a b c d : List UInt8} (ha : a.length < 256 ^ w)
    (hb : b.length < 256 ^ w)
    (h : beBytes w a.length ++ (a ++ c) = beBytes w b.length ++ (b ++ d)) : a = b ∧ c = d := by
  obtain ⟨hlen, hrest⟩ := beBytes_append_inj ha hb h
  exact List.append_inj hrest hlen

end Napqes
