import AxiomApps.Lib.Memory

/-!
# Arrays of values that take several bytes

A value of `w` bytes is stored as its `w` parts, one to a byte. A slot of an array holds a value
when it holds all parts of it in their places; parts of different values side by side, or a byte
that nobody has written, are no value.
-/

namespace Slots

open Memory

/-- A byte of the array: a part of a value, or what was there when it was allocated. -/
inductive Cell (α : Type*)
  | part (v : α) (k : ℕ)
  | unset
  deriving DecidableEq

variable {α : Type*} {w n i j : ℕ} {v : α} {m m' : ℕ → Cell α}

def encode (w : ℕ) (v : α) : List (Cell α) := (List.range w).map (.part v)

def store (w : ℕ) (m : ℕ → Cell α) (i : ℕ) (v : α) : ℕ → Cell α := write m (w * i) (encode w v)

/-- The array in a larger block: its first `n` slots are kept. -/
def grow (w n : ℕ) (m : ℕ → Cell α) : ℕ → Cell α := fun x ↦ if x < w * n then m x else .unset

def slot [DecidableEq α] (w : ℕ) (m : ℕ → Cell α) (i : ℕ) : Option α :=
  match m (w * i) with
  | .part v _ => if read m (w * i) w = encode w v then some v else none
  | .unset => none

theorem read_eq_encode_iff {a : ℕ} :
    read m a w = encode w v ↔ ∀ k < w, m (a + k) = .part v k := by
  rw [Memory.read, encode, List.map_inj_left]
  simp only [List.mem_range]

theorem encode_getElem? {k : ℕ} (hk : k < w) : (encode w v)[k]? = some (.part v k) := by
  simp [encode, hk]

@[simp] theorem length_encode : (encode w v).length = w := by
  simp [encode]

theorem slot_end_le (h : i < j) : w * i + w ≤ w * j := by
  calc w * i + w = w * (i + 1) := by ring
    _ ≤ w * j := Nat.mul_le_mul_left w h

variable [DecidableEq α]

theorem slot_eq_some_iff [NeZero w] :
    slot w m i = some v ↔ ∀ k < w, m (w * i + k) = .part v k := by
  have hpos : 0 < w := NeZero.pos w
  rw [← read_eq_encode_iff]
  constructor
  · intro h
    unfold slot at h
    split at h
    · split at h
      · cases h
        assumption
      · cases h
    · cases h
  · intro h
    have hfirst := read_eq_encode_iff.mp h 0 hpos
    rw [Nat.add_zero] at hfirst
    rw [slot, hfirst]
    exact if_pos h

theorem slot_congr [NeZero w] (h : ∀ k < w, m (w * i + k) = m' (w * i + k)) :
    slot w m i = slot w m' i := by
  refine Option.ext fun v ↦ ?_
  rw [slot_eq_some_iff, slot_eq_some_iff]
  exact forall₂_congr fun k hk ↦ by rw [h k hk]

theorem slot_store_self [NeZero w] : slot w (store w m i v) i = some v :=
  slot_eq_some_iff.mpr fun _ hk ↦ write_of_getElem? (encode_getElem? hk)

theorem slot_store_of_ne [NeZero w] (h : j ≠ i) : slot w (store w m i v) j = slot w m j := by
  refine slot_congr fun k hk ↦ ?_
  rcases Nat.lt_or_gt_of_ne h with hlt | hgt
  · have hend := slot_end_le (w := w) hlt
    exact write_of_lt _ (by omega)
  · have hend := slot_end_le (w := w) hgt
    exact write_of_le (by rw [length_encode]; omega)

theorem slot_grow_of_lt [NeZero w] (h : i < n) : slot w (grow w n m) i = slot w m i := by
  refine slot_congr fun k hk ↦ ?_
  have hend := slot_end_le (w := w) h
  exact if_pos (by omega)

theorem slot_grow_new [NeZero w] (h : n ≤ i) : slot w (grow w n m) i = none := by
  rw [slot, grow, if_neg (Nat.not_lt.mpr (Nat.mul_le_mul_left w h))]

/-- A copy leaves the slots behind the bytes it writes. -/
theorem slot_copy_of_le [NeZero w] {dst src : ℕ} (h : dst + n ≤ w * i) :
    slot w (copy m dst src n) i = slot w m i :=
  slot_congr fun _ _ ↦ write_of_le (by rw [length_read]; omega)

end Slots
