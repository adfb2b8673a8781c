import Mathlib

/-!
# Tilings of an interval

A list of chunks, each an offset and a length, tiles an interval if every chunk begins
where the one before it ends. Whatever the order in which the chunks of a tiling are then
used, they are disjoint and cover the interval.
-/

namespace Tiling

/-- The chunks of the list lie end to end from `lo` to `hi`. -/
def Tiles : ℕ → List (ℕ × ℕ) → ℕ → Prop
  | lo, [], hi => lo = hi
  | lo, c :: l, hi => c.1 = lo ∧ Tiles (lo + c.2) l hi

def extent (c : ℕ × ℕ) : Set ℕ := Set.Ico c.1 (c.1 + c.2)

variable {lo mid hi : ℕ} {l l' : List (ℕ × ℕ)}

@[simp] theorem tiles_nil : Tiles lo [] hi ↔ lo = hi := Iff.rfl

theorem Tiles.snoc (h : Tiles lo l mid) (n : ℕ) : Tiles lo (l ++ [(mid, n)]) (mid + n) := by
  induction l generalizing lo with
  | nil =>
      obtain rfl : lo = mid := h
      exact ⟨rfl, rfl⟩
  | cons c l ih => exact ⟨h.1, ih h.2⟩

theorem Tiles.sum (h : Tiles lo l hi) : lo + (l.map Prod.snd).sum = hi := by
  induction l generalizing lo with
  | nil => simpa using h
  | cons c l ih =>
      rw [List.map_cons, List.sum_cons, ← add_assoc]
      exact ih h.2

theorem Tiles.le (h : Tiles lo l hi) : lo ≤ hi := by
  have hsum := h.sum
  omega

theorem Tiles.le_of_mem (h : Tiles lo l hi) {c : ℕ × ℕ} (hc : c ∈ l) : lo ≤ c.1 := by
  induction l generalizing lo with
  | nil => simp at hc
  | cons d l ih =>
      rcases List.mem_cons.mp hc with rfl | hc
      · exact h.1.ge
      · exact (Nat.le_add_right lo d.2).trans (ih h.2 hc)

theorem Tiles.covers (h : Tiles lo l hi) (x : ℕ) : (∃ c ∈ l, x ∈ extent c) ↔ lo ≤ x ∧ x < hi := by
  induction l generalizing lo with
  | nil =>
      obtain rfl : lo = hi := h
      simp
  | cons c l ih =>
      have hle := h.2.le
      obtain ⟨rfl, hrest⟩ := h
      simp only [List.mem_cons, exists_eq_or_imp]
      rw [ih hrest, extent, Set.mem_Ico]
      omega

theorem Tiles.pairwise (h : Tiles lo l hi) :
    l.Pairwise fun c d ↦ Disjoint (extent c) (extent d) := by
  induction l generalizing lo with
  | nil => exact .nil
  | cons c l ih =>
      refine List.pairwise_cons.mpr ⟨fun d hd ↦ ?_, ih h.2⟩
      have hle := h.2.le_of_mem hd
      rw [← h.1] at hle
      refine Set.disjoint_left.mpr fun x hx hx' ↦ ?_
      exact absurd (hx.2.trans_le hle) (Nat.not_lt.mpr hx'.1)

/-- A tiling by chunks that are not empty has at most as many chunks as positions. -/
theorem Tiles.length_le (h : Tiles lo l hi) (hpos : ∀ c ∈ l, 0 < c.2) : lo + l.length ≤ hi := by
  induction l generalizing lo with
  | nil => simpa using h.le
  | cons c l ih =>
      have hrest := ih h.2 fun d hd ↦ hpos d (List.mem_cons_of_mem _ hd)
      have hc := hpos c (List.mem_cons_self ..)
      rw [List.length_cons]
      omega

/-! Whatever the order in which the chunks of a tiling are used. -/

theorem pairwise_of_subperm (h : Tiles lo l hi) (hsub : l'.Subperm l) :
    l'.Pairwise fun c d ↦ Disjoint (extent c) (extent d) := by
  obtain ⟨l₁, hperm, hsublist⟩ := hsub
  exact (hperm.pairwise_iff fun hdisj ↦ hdisj.symm).mp (h.pairwise.sublist hsublist)

theorem covers_of_perm (h : Tiles lo l hi) (hperm : l'.Perm l) (x : ℕ) :
    (∃ c ∈ l', x ∈ extent c) ↔ lo ≤ x ∧ x < hi := by
  simp only [hperm.mem_iff, h.covers]

theorem sum_of_perm (h : Tiles lo l hi) (hperm : l'.Perm l) :
    lo + (l'.map Prod.snd).sum = hi := by
  rw [(hperm.map Prod.snd).sum_eq, h.sum]

end Tiling
