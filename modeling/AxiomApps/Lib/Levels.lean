import Mathlib.Combinatorics.SimpleGraph.Metric
import Mathlib.Tactic

/-!
# Distance levels

The vertices of a finite set by their distance from a vertex `u`, as a search going
out from `u` level by level meets them.
-/

namespace Levels

variable {X : Type*} {G : SimpleGraph X} {u v w : X} {r : ℕ}

theorem dist_le_succ (h : G.Adj w v) : G.dist u v ≤ G.dist u w + 1 := by
  rcases h.diff_dist_adj (u := u) with h | h | h <;> omega

theorem exists_adj_dist_eq (h : G.dist u v = r + 1) : ∃ w, G.Adj w v ∧ G.dist u w = r := by
  obtain ⟨p, hp⟩ := G.exists_walk_of_dist_ne_zero (u := u) (v := v) (by omega)
  rw [← p.length_reverse] at hp
  cases hq : p.reverse with
  | nil => simp at h
  | cons hadj q =>
      rw [hq, SimpleGraph.Walk.length_cons] at hp
      have hle := G.dist_le q
      rw [SimpleGraph.dist_comm] at hle
      have hsucc := dist_le_succ (u := u) hadj.symm
      exact ⟨_, hadj.symm, by omega⟩

/-- A first step towards `w`, kept by a neighbour of `w` on the next level. -/
theorem dist_step {f : X} (huf : G.Adj u f) (hfw : G.dist f w + 1 = G.dist u w)
    (hwv : G.Adj w v) (hv : G.dist u v = G.dist u w + 1) : G.dist f v + 1 = G.dist u v := by
  have hle := dist_le_succ (u := f) hwv
  have hback := dist_le_succ (u := v) huf.symm
  rw [SimpleGraph.dist_comm, SimpleGraph.dist_comm (u := v) (v := f)] at hback
  omega

open Classical in
/-- The vertices of `s` other than `u` at distance at most `r`. -/
noncomputable def within (G : SimpleGraph X) (s : Finset X) (u : X) (r : ℕ) : Finset X :=
  s.filter fun v ↦ v ≠ u ∧ G.dist u v ≤ r

variable {s : Finset X}

theorem mem_within : v ∈ within G s u r ↔ v ∈ s ∧ v ≠ u ∧ G.dist u v ≤ r := by
  classical
  simp [within]

theorem within_mono {r' : ℕ} (h : r ≤ r') : within G s u r ⊆ within G s u r' := by
  intro v hv
  rw [mem_within] at hv ⊢
  exact ⟨hv.1, hv.2.1, hv.2.2.trans h⟩

theorem card_within_lt (hu : u ∈ s) : (within G s u r).card < s.card := by
  refine Finset.card_lt_card ⟨fun v hv ↦ (mem_within.mp hv).1, fun h ↦ ?_⟩
  exact (mem_within.mp (h hu)).2.1 rfl

/-- All other vertices are within `r` when there are enough of them. -/
theorem dist_le_of_card (hu : u ∈ s) (h : s.card ≤ (within G s u r).card + 1) (hv : v ∈ s)
    (hne : v ≠ u) : G.dist u v ≤ r := by
  classical
  have hsub : insert u (within G s u r) ⊆ s := by
    intro x hx
    rcases Finset.mem_insert.mp hx with rfl | hx
    · exact hu
    · exact (mem_within.mp hx).1
  have hnot : u ∉ within G s u r := fun hmem ↦ (mem_within.mp hmem).2.1 rfl
  have heq : insert u (within G s u r) = s := by
    refine Finset.eq_of_subset_of_card_le hsub ?_
    rwa [Finset.card_insert_of_notMem hnot]
  rw [← heq] at hv
  exact (mem_within.mp ((Finset.mem_insert.mp hv).resolve_left hne)).2.2

theorem card_within_add_one (hu : u ∈ s) (h : ∀ v ∈ s, v ≠ u → G.dist u v ≤ r) :
    (within G s u r).card + 1 = s.card := by
  classical
  have hnot : u ∉ within G s u r := fun hmem ↦ (mem_within.mp hmem).2.1 rfl
  rw [← Finset.card_insert_of_notMem hnot]
  congr 1
  ext x
  rw [Finset.mem_insert, mem_within]
  constructor
  · rintro (rfl | hx)
    · exact hu
    · exact hx.1
  · intro hx
    by_cases hxu : x = u
    · exact .inl hxu
    · exact .inr ⟨hx, hxu, h x hx hxu⟩

theorem card_within_succ {F : Finset X}
    (hF : ∀ v, v ∈ F ↔ v ∈ s ∧ v ≠ u ∧ G.dist u v = r + 1) :
    (within G s u (r + 1)).card = (within G s u r).card + F.card := by
  classical
  rw [← Finset.card_union_of_disjoint]
  · congr 1
    ext v
    rw [Finset.mem_union, mem_within, mem_within, hF]
    constructor
    · rintro ⟨hv, hne, hle⟩
      rcases Nat.le_succ_iff.mp hle with hle | heq
      · exact .inl ⟨hv, hne, hle⟩
      · exact .inr ⟨hv, hne, heq⟩
    · rintro (⟨hv, hne, hle⟩ | ⟨hv, hne, heq⟩)
      · exact ⟨hv, hne, by omega⟩
      · exact ⟨hv, hne, heq.le⟩
  · rw [Finset.disjoint_left]
    intro v hv hvF
    have hle := (mem_within.mp hv).2.2
    have heq := ((hF v).mp hvF).2.2
    omega

/-! ## Distances along maps -/

section Map

variable {Y : Type*} {H : SimpleGraph Y}

theorem dist_map_le (f : G →g H) (h : G.Reachable u v) : H.dist (f u) (f v) ≤ G.dist u v := by
  obtain ⟨p, hp⟩ := h.exists_walk_length_eq_dist
  rw [← hp, ← p.length_map f]
  exact H.dist_le (p.map f)

/-- Maps both ways keep the distance between vertices they take back to themselves. -/
theorem dist_map_eq (f : G →g H) (g : H →g G) (hu : g (f u) = u) (hv : g (f v) = v)
    (h : G.Reachable u v) : H.dist (f u) (f v) = G.dist u v := by
  refine le_antisymm (dist_map_le f h) ?_
  have hback := dist_map_le g (h.map f)
  rwa [hu, hv] at hback

end Map

end Levels
