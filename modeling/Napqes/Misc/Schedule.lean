import Mathlib.Tactic

/-!
# Capped slot schedules

A sender hides a list of items in a longer list of slots. A predicate on slot positions
says which slots want to be noise; at most `cap` consecutive noise slots are honoured, then
an item is forced. After the last item the list is topped up with filler to `cap + 1` slots
per item, so its length does not depend on the predicate. A receiver that knows the
predicate replays the decision and finds every item again.

Nothing here depends on what an item or a slot is: `real idx x` is the slot that carries
item number `idx`, `filler idx pos` the noise slot at `pos` while item `idx` is awaited,
and `recover idx t` reads an item back out of a slot.
-/

namespace Napqes.Schedule

variable {α τ : Type} (noise : Nat → Bool)

/-- Length of the noise run honoured from `pos` on when at most `cap` slots are allowed. -/
def run : Nat → Nat → Nat
  | 0, _ => 0
  | cap + 1, pos => if noise pos then run cap (pos + 1) + 1 else 0

theorem run_le (cap pos : Nat) : run noise cap pos ≤ cap := by
  induction cap generalizing pos with
  | zero => exact Nat.le_refl 0
  | succ cap ih =>
      have hnext := ih (pos + 1)
      simp only [run]
      split <;> omega

variable (cap : Nat) (real : Nat → α → τ) (filler : Nat → Nat → τ)

/-! ## Emission -/

/-- The slots emitted for the items `xs`, of which the first has number `idx` and is
awaited from position `pos` on. -/
def emit : Nat → Nat → List α → List τ
  | _, _, [] => []
  | idx, pos, x :: xs =>
      (List.range' pos (run noise cap pos)).map (filler idx) ++
        real idx x :: emit (idx + 1) (pos + run noise cap pos + 1) xs

/-- The run cap bounds the emission by `cap + 1` slots for each item. -/
theorem length_emit_le (idx pos : Nat) (xs : List α) :
    (emit noise cap real filler idx pos xs).length ≤ xs.length * (cap + 1) := by
  induction xs generalizing idx pos with
  | nil => simp [emit]
  | cons x xs ih =>
      have hrun := run_le noise cap pos
      have hrest := ih (idx + 1) (pos + run noise cap pos + 1)
      simp only [emit, List.length_append, List.length_map, List.length_range',
        List.length_cons, Nat.add_mul, Nat.one_mul]
      omega

/-- The whole emission: the items from position 0 on, then filler up to the ceiling. -/
def emitAll (xs : List α) : List τ :=
  let slots := emit noise cap real filler 0 0 xs
  slots ++ (List.range' slots.length (xs.length * (cap + 1) - slots.length)).map
    (filler xs.length)

/-- The length of an emission is the same for every noise predicate. -/
@[simp] theorem length_emitAll (xs : List α) :
    (emitAll noise cap real filler xs).length = xs.length * (cap + 1) := by
  have hle := length_emit_le noise cap real filler 0 0 xs
  simp only [emitAll, List.length_append, List.length_map, List.length_range']
  omega

/-- A property of every item slot and every filler slot holds of the whole emission. -/
theorem forall_mem_emit {P : τ → Prop} (hfiller : ∀ idx pos, P (filler idx pos))
    (idx pos : Nat) (xs : List α) (hreal : ∀ idx, ∀ x ∈ xs, P (real idx x)) :
    ∀ t ∈ emit noise cap real filler idx pos xs, P t := by
  induction xs generalizing idx pos with
  | nil => simp [emit]
  | cons x xs ih =>
      intro t ht
      simp only [emit, List.mem_append, List.mem_map, List.mem_cons] at ht
      rcases ht with ⟨p, -, rfl⟩ | rfl | ht
      · exact hfiller idx p
      · exact hreal idx x (by simp)
      · exact ih (idx + 1) _ (fun i y hy => hreal i y (by simp [hy])) t ht

theorem forall_mem_emitAll {P : τ → Prop} (hfiller : ∀ idx pos, P (filler idx pos))
    (xs : List α) (hreal : ∀ idx, ∀ x ∈ xs, P (real idx x)) :
    ∀ t ∈ emitAll noise cap real filler xs, P t := by
  intro t ht
  simp only [emitAll, List.mem_append, List.mem_map] at ht
  rcases ht with ht | ⟨p, -, rfl⟩
  · exact forall_mem_emit noise cap real filler hfiller 0 0 xs hreal t ht
  · exact hfiller _ p

/-! ## Replay -/

variable (recover : Nat → τ → Option α)

/-- Read `n` items, the first of number `idx` and awaited from position `pos` on. -/
def decode (slots : List τ) : Nat → Nat → Nat → Option (List α)
  | 0, _, _ => some []
  | n + 1, idx, pos => do
      let t ← slots[pos + run noise cap pos]?
      let x ← recover idx t
      let xs ← decode slots n (idx + 1) (pos + run noise cap pos + 1)
      return x :: xs

theorem decode_succ_eq_some {slots : List τ} {n idx pos : Nat} {xs : List α}
    (h : decode noise cap recover slots (n + 1) idx pos = some xs) :
    ∃ t x ys, recover idx t = some x ∧
      decode noise cap recover slots n (idx + 1) (pos + run noise cap pos + 1) = some ys ∧
      xs = x :: ys := by
  obtain ⟨t, -, h⟩ := Option.bind_eq_some_iff.mp h
  obtain ⟨x, hx, h⟩ := Option.bind_eq_some_iff.mp h
  obtain ⟨ys, hys, h⟩ := Option.bind_eq_some_iff.mp h
  exact ⟨t, x, ys, hx, hys, (Option.some.inj h).symm⟩

theorem length_of_decode {slots : List τ} {n idx pos : Nat} {xs : List α}
    (h : decode noise cap recover slots n idx pos = some xs) : xs.length = n := by
  induction n generalizing idx pos xs with
  | zero =>
      simp only [decode, Option.some.injEq] at h
      simp [← h]
  | succ n ih =>
      obtain ⟨t, x, ys, -, hys, rfl⟩ := decode_succ_eq_some noise cap recover h
      simp [ih hys]

/-- A property of everything `recover` reads holds of every decoded item. -/
theorem forall_mem_of_decode {P : α → Prop}
    (hrec : ∀ idx t x, recover idx t = some x → P x) {slots : List τ} {n idx pos : Nat}
    {xs : List α} (h : decode noise cap recover slots n idx pos = some xs) :
    ∀ x ∈ xs, P x := by
  induction n generalizing idx pos xs with
  | zero =>
      simp only [decode, Option.some.injEq] at h
      simp [← h]
  | succ n ih =>
      obtain ⟨t, x, ys, hx, hys, rfl⟩ := decode_succ_eq_some noise cap recover h
      intro y hy
      rcases List.mem_cons.mp hy with rfl | hy
      · exact hrec _ _ _ hx
      · exact ih hys y hy

/-- Replaying the schedule over an emission finds the emitted items, whatever precedes and
follows the emission. -/
theorem decode_emit (idx pos : Nat) (xs : List α) (pre post : List τ)
    (hpre : pre.length = pos) (hrec : ∀ idx, ∀ x ∈ xs, recover idx (real idx x) = some x) :
    decode noise cap recover (pre ++ (emit noise cap real filler idx pos xs ++ post))
      xs.length idx pos = some xs := by
  induction xs generalizing idx pos pre with
  | nil => rfl
  | cons x xs ih =>
      -- Everything up to and including the item's own slot becomes the new prefix.
      let lead := pre ++ (List.range' pos (run noise cap pos)).map (filler idx) ++ [real idx x]
      have hlead : lead.length = pos + run noise cap pos + 1 := by
        simp [lead, hpre, Nat.add_assoc]
      have hslots : pre ++ (emit noise cap real filler idx pos (x :: xs) ++ post) =
          lead ++ (emit noise cap real filler (idx + 1) (pos + run noise cap pos + 1) xs ++
            post) := by
        simp [lead, emit]
      have hat : (lead ++ (emit noise cap real filler (idx + 1)
          (pos + run noise cap pos + 1) xs ++ post))[pos + run noise cap pos]? =
            some (real idx x) := by
        rw [List.getElem?_append_left (by omega)]
        simp [lead, hpre]
      have hx : recover idx (real idx x) = some x := hrec idx x (by simp)
      have hrest := ih (idx + 1) (pos + run noise cap pos + 1) lead hlead
        (fun i y hy => hrec i y (by simp [hy]))
      rw [hslots]
      simp only [List.length_cons, decode, hat, Option.bind_eq_bind, Option.bind_some, hx, hrest]
      rfl

/-- The receiver that knows the item count recovers every item of a whole emission. -/
theorem decode_emitAll (xs : List α)
    (hrec : ∀ idx, ∀ x ∈ xs, recover idx (real idx x) = some x) :
    decode noise cap recover (emitAll noise cap real filler xs) xs.length 0 0 = some xs :=
  decode_emit noise cap real filler recover 0 0 xs [] _ rfl hrec

/-! ## Bounded scans

Loops that look for the next item also stop at the end of the slot list. -/

/-- Scanning with the extra stop at `n` ends where the run ends, or at `n`. -/
theorem min_run_eq {cap pos n : Nat} (hpos : pos < n) :
    min (pos + run noise (cap + 1) pos) n =
      if noise pos then min (pos + 1 + run noise cap (pos + 1)) n else pos := by
  by_cases hnoise : noise pos = true
  · simp only [run, if_pos hnoise]
    omega
  · simp only [run, if_neg hnoise]
    simp
    omega

/-! ## Uncapped schedules

Without a cap nothing forces an item: it waits for the first free position, however far that is,
and a receiver can classify each position by itself. -/

/-- `slots`, from position `pos` on, carry the items `xs`, of which the first has number `idx`:
anything stands at a noise position, the slot of the next item at a free one. -/
inductive Placed : Nat → Nat → List α → List τ → Prop
  | nil (idx pos : Nat) : Placed idx pos [] []
  | noise {idx pos : Nat} {xs : List α} {slots : List τ} (t : τ) (hpos : noise pos = true)
      (rest : Placed idx (pos + 1) xs slots) : Placed idx pos xs (t :: slots)
  | item {idx pos : Nat} {xs : List α} {slots : List τ} (x : α) (hpos : noise pos = false)
      (rest : Placed (idx + 1) (pos + 1) xs slots) : Placed idx pos (x :: xs) (real idx x :: slots)

/-- `slots`, from position `pos` on, are the emission of the items `xs`: filler stands at a noise
position, the slot of the next item at a free one, and the last item ends it. -/
inductive Emits (filler : Nat → Nat → τ) : Nat → Nat → List α → List τ → Prop
  | nil (idx pos : Nat) : Emits filler idx pos [] []
  | noise {idx pos : Nat} {x : α} {xs : List α} {slots : List τ} (hpos : noise pos = true)
      (rest : Emits filler idx (pos + 1) (x :: xs) slots) :
      Emits filler idx pos (x :: xs) (filler idx pos :: slots)
  | item {idx pos : Nat} {x : α} {xs : List α} {slots : List τ} (hpos : noise pos = false)
      (rest : Emits filler (idx + 1) (pos + 1) xs slots) :
      Emits filler idx pos (x :: xs) (real idx x :: slots)

/-- The slots at the positions that are not noise. -/
def free : Nat → List τ → List τ
  | _, [] => []
  | pos, t :: slots => if noise pos then free (pos + 1) slots else t :: free (pos + 1) slots

variable {noise real}

theorem Placed.length_le {idx pos : Nat} {xs : List α} {slots : List τ}
    (h : Placed noise real idx pos xs slots) : xs.length ≤ slots.length := by
  induction h with
  | nil idx pos => exact Nat.le_refl 0
  | noise t _ _ ih => exact Nat.le_succ_of_le ih
  | item x _ _ ih => exact Nat.succ_le_succ ih

/-- Items placed behind others are placed with them. -/
theorem Placed.append {idx pos : Nat} {xs ys : List α} {slots slots' : List τ}
    (h : Placed noise real idx pos xs slots)
    (h' : Placed noise real (idx + xs.length) (pos + slots.length) ys slots') :
    Placed noise real idx pos (xs ++ ys) (slots ++ slots') := by
  induction h with
  | nil idx pos => exact h'
  | @noise idx pos xs slots t hpos _ ih =>
      apply Placed.noise t hpos
      apply ih
      rwa [List.length_cons, Nat.add_comm slots.length, ← Nat.add_assoc] at h'
  | @item idx pos xs slots x hpos _ ih =>
      apply Placed.item x hpos
      apply ih
      rwa [List.length_cons, List.length_cons, Nat.add_comm slots.length,
        Nat.add_comm xs.length, ← Nat.add_assoc, ← Nat.add_assoc] at h'

/-- Among the positions of a placement the items stand at the free ones. -/
theorem Placed.count_free {idx pos : Nat} {xs : List α} {slots : List τ}
    (h : Placed noise real idx pos xs slots) :
    Nat.count (fun i => noise (pos + i) = false) slots.length = xs.length := by
  induction h with
  | nil idx pos => rfl
  | @noise idx pos xs slots t hpos _ ih =>
      rw [List.length_cons, Nat.count_succ', if_neg (by simp [hpos]), Nat.add_zero, ← ih]
      simp only [Nat.add_assoc, Nat.add_comm 1]
  | @item idx pos xs slots x hpos _ ih =>
      rw [List.length_cons, List.length_cons, Nat.count_succ',
        if_pos (show noise (pos + 0) = false from hpos), ← ih]
      simp only [Nat.add_assoc, Nat.add_comm 1]

/-- An item has a free position. -/
theorem Placed.exists_free {idx pos : Nat} {x : α} {xs : List α} {slots : List τ}
    (h : Placed noise real idx pos (x :: xs) slots) :
    ∃ i < slots.length, noise (pos + i) = false := by
  by_contra hnone
  have hcount := h.count_free
  rw [Nat.count_iff_forall_not.mpr fun i hi hfree => hnone ⟨i, hi, hfree⟩] at hcount
  cases hcount

/-- A placement from position 0 that ends with an item stays within `b` positions exactly when these
have enough free ones. -/
theorem Placed.length_le_iff {idx : Nat} {xs : List α} {slots : List τ}
    (h : Placed noise real idx 0 xs slots)
    (hlast : ∀ m, slots.length = m + 1 → noise m = false) (b : Nat) :
    slots.length ≤ b ↔ xs.length ≤ Nat.count (fun i => noise i = false) b := by
  have hcount : Nat.count (fun i => noise i = false) slots.length = xs.length := by
    simpa only [Nat.zero_add] using h.count_free
  constructor
  · intro hle
    rw [← hcount]
    exact Nat.count_monotone _ hle
  · intro hle
    by_contra hgt
    obtain ⟨m, hm⟩ : ∃ m, slots.length = m + 1 := ⟨slots.length - 1, by omega⟩
    have hstrict : Nat.count (fun i => noise i = false) m <
        Nat.count (fun i => noise i = false) (m + 1) :=
      Nat.count_strict_mono (hlast m hm) (Nat.lt_succ_self m)
    have hmono : Nat.count (fun i => noise i = false) b ≤ Nat.count (fun i => noise i = false) m :=
      Nat.count_monotone _ (by omega)
    rw [← hm, hcount] at hstrict
    omega

section
variable {filler : Nat → Nat → τ}

/-- The items have one emission. -/
theorem Emits.unique {idx pos : Nat} {xs : List α} {slots slots' : List τ}
    (h : Emits noise real filler idx pos xs slots)
    (h' : Emits noise real filler idx pos xs slots') : slots = slots' := by
  induction h generalizing slots' with
  | nil idx pos =>
      cases h'
      rfl
  | noise hpos _ ih =>
      cases h' with
      | noise _ rest => rw [ih rest]
      | item hfree _ => exact absurd (hpos.symm.trans hfree) (by simp)
  | item hpos _ ih =>
      cases h' with
      | noise hnoise _ => exact absurd (hpos.symm.trans hnoise) (by simp)
      | item _ rest => rw [ih rest]

theorem Emits.placed {idx pos : Nat} {xs : List α} {slots : List τ}
    (h : Emits noise real filler idx pos xs slots) : Placed noise real idx pos xs slots := by
  induction h with
  | nil idx pos => exact .nil idx pos
  | noise hpos _ ih => exact .noise _ hpos ih
  | item hpos _ ih => exact .item _ hpos ih

/-- Items emitted behind others are emitted with them. -/
theorem Emits.append {idx pos : Nat} {xs ys : List α} {slots slots' : List τ}
    (h : Emits noise real filler idx pos xs slots)
    (h' : Emits noise real filler (idx + xs.length) (pos + slots.length) ys slots') :
    Emits noise real filler idx pos (xs ++ ys) (slots ++ slots') := by
  induction h with
  | nil idx pos => exact h'
  | @noise idx pos x xs slots hpos _ ih =>
      apply Emits.noise hpos
      apply ih
      have hnext : pos + (filler idx pos :: slots).length = pos + 1 + slots.length := by
        rw [List.length_cons]
        omega
      rwa [hnext] at h'
  | @item idx pos x xs slots hpos _ ih =>
      apply Emits.item hpos
      apply ih
      rwa [List.length_cons, List.length_cons, Nat.add_comm slots.length,
        Nat.add_comm xs.length, ← Nat.add_assoc, ← Nat.add_assoc] at h'

/-- The emission of one item and those behind it. -/
theorem emits_cons_iff {idx pos : Nat} {x : α} {xs : List α} {slots : List τ} :
    Emits noise real filler idx pos (x :: xs) slots ↔
      ∃ first rest, slots = first ++ rest ∧ Emits noise real filler idx pos [x] first ∧
        Emits noise real filler (idx + 1) (pos + first.length) xs rest := by
  constructor
  · intro h
    generalize hitems : x :: xs = items at h
    induction h with
    | nil idx pos => cases hitems
    | noise hpos _ ih =>
        obtain ⟨first, rest, rfl, hfirst, hrest⟩ := ih hitems
        obtain ⟨rfl, rfl⟩ := List.cons.inj hitems
        refine ⟨_ :: first, rest, rfl, .noise hpos hfirst, ?_⟩
        rwa [List.length_cons, Nat.add_comm first.length, ← Nat.add_assoc]
    | item hpos rest _ =>
        obtain ⟨rfl, rfl⟩ := List.cons.inj hitems
        exact ⟨_, _, rfl, .item hpos (.nil _ _), rest⟩
  · rintro ⟨first, rest, rfl, hfirst, hrest⟩
    exact hfirst.append hrest

/-- Only the positions of the slots matter, and the slots that stand there. -/
theorem Emits.congr {noise' : Nat → Bool} {real' : Nat → α → τ} {filler' : Nat → Nat → τ}
    {idx pos : Nat} {xs : List α} {slots : List τ}
    (h : Emits noise real filler idx pos xs slots)
    (hnoise : ∀ i < slots.length, noise' (pos + i) = noise (pos + i))
    (hreal : ∀ idx, ∀ x ∈ xs, real' idx x = real idx x)
    (hfiller : ∀ idx pos, filler' idx pos = filler idx pos) :
    Emits noise' real' filler' idx pos xs slots := by
  induction h with
  | nil idx pos => exact .nil idx pos
  | @noise idx pos x xs slots hpos _ ih =>
      have hrest := ih (fun i hi => by
        rw [Nat.add_assoc, Nat.add_comm 1]
        exact hnoise (i + 1) (Nat.succ_lt_succ hi)) hreal
      rw [← hfiller]
      exact .noise ((hnoise 0 (Nat.succ_pos _)).trans hpos) hrest
  | @item idx pos x xs slots hpos _ ih =>
      have hrest := ih (fun i hi => by
        rw [Nat.add_assoc, Nat.add_comm 1]
        exact hnoise (i + 1) (Nat.succ_lt_succ hi)) fun i y hy => hreal i y (by simp [hy])
      rw [← hreal idx x (by simp)]
      exact .item ((hnoise 0 (Nat.succ_pos _)).trans hpos) hrest

theorem Emits.forall_mem {P : τ → Prop} {idx pos : Nat} {xs : List α} {slots : List τ}
    (h : Emits noise real filler idx pos xs slots) (hfiller : ∀ idx pos, P (filler idx pos))
    (hreal : ∀ idx, ∀ x ∈ xs, P (real idx x)) : ∀ t ∈ slots, P t := by
  induction h with
  | nil idx pos => exact fun t ht => absurd ht (by simp)
  | noise _ _ ih => exact List.forall_mem_cons.mpr ⟨hfiller _ _, ih hreal⟩
  | item _ _ ih =>
      exact List.forall_mem_cons.mpr
        ⟨hreal _ _ (by simp), ih fun i y hy => hreal i y (by simp [hy])⟩

/-- The last slot is that of an item. -/
theorem Emits.last {idx pos m : Nat} {xs : List α} {slots : List τ}
    (h : Emits noise real filler idx pos xs slots) (hm : slots.length = m + 1) :
    noise (pos + m) = false := by
  induction h generalizing m with
  | nil idx pos => cases hm
  | @noise idx pos x xs slots hpos rest ih =>
      -- An item is still awaited, so there are further slots.
      have hlen := rest.placed.length_le
      rw [List.length_cons] at hlen hm
      have hlast := ih (m := m - 1) (by omega)
      rwa [Nat.add_assoc, Nat.add_sub_cancel' (by omega)] at hlast
  | @item idx pos x xs slots hpos rest ih =>
      rw [List.length_cons] at hm
      cases slots with
      | nil =>
          obtain rfl : m = 0 := by simpa using hm.symm
          exact hpos
      | cons t slots =>
          have hlast := ih (m := m - 1) (by rw [List.length_cons] at hm ⊢; omega)
          rwa [Nat.add_assoc, Nat.add_sub_cancel' (by rw [List.length_cons] at hm; omega)] at hlast

end

section
variable (hruns : ∀ pos, ∃ i, noise (pos + i) = false)

/-- Length of the noise run from `pos` on, when every run ends. -/
def gap (pos : Nat) : Nat := Nat.find (hruns pos)

theorem noise_add_gap (pos : Nat) : noise (pos + gap hruns pos) = false := Nat.find_spec (hruns pos)

theorem noise_of_lt_gap {pos i : Nat} (h : i < gap hruns pos) : noise (pos + i) = true :=
  Bool.eq_true_of_not_eq_false (Nat.find_min (hruns pos) h)

variable (real)

/-- The slots of the items `xs`, each at the first free position. -/
def emitFree (filler : Nat → Nat → τ) : Nat → Nat → List α → List τ
  | _, _, [] => []
  | idx, pos, x :: xs =>
      (List.range' pos (gap hruns pos)).map (filler idx) ++ [real idx x] ++
        emitFree filler (idx + 1) (pos + gap hruns pos + 1) xs

/-- Without noise there is nothing but the items. -/
theorem emitFree_of_free (hfree : ∀ pos, noise pos = false) (filler : Nat → Nat → τ)
    (idx pos : Nat) (xs : List α) :
    emitFree real hruns filler idx pos xs = xs.mapIdx fun i x => real (idx + i) x := by
  induction xs generalizing idx pos with
  | nil => rfl
  | cons x xs ih =>
      have hgap : gap hruns pos = 0 := (Nat.find_eq_zero (hruns pos)).mpr (hfree (pos + 0))
      rw [emitFree, hgap, ih, List.mapIdx_cons]
      simp only [Nat.add_zero, Nat.add_assoc, Nat.add_comm 1]
      rfl

end

end Napqes.Schedule
