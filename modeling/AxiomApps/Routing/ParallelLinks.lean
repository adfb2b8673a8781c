import AxiomApps.Routing.Shortest

/-!
# Parallel links

The masks of direct neighbours always hold all the links to them. But a neighbour
behind several links is counted once for each, so the search may end at a level at
which the counter has reached the number of the other nodes while some of them have
not been found.
-/

namespace AxiomApps.Routing

open Levels

variable {nic : NicLimits} {t : Topology} {masterId lastNode : ℕ}

/-- What the tables are expected to hold for every pair of nodes. -/
def Complete (nic : NicLimits) (t : Topology) (masterId lastNode : ℕ)
    (tables : ℕ → RoutingTable) : Prop :=
  ∀ u v, masterId ≤ u → u < lastNode → masterId ≤ v → v < lastNode → u ≠ v →
    tables u v ≠ axiomNullRtInterface ∧ (Linked nic t u v → LinkMask nic t u v (tables u v))

/-- The search from `u` does not end before all nodes are entered. -/
def CountsUp (nic : NicLimits) (t : Topology) (masterId lastNode u : ℕ) : Prop :=
  ∀ r ≥ 2, (within (graph nic t masterId lastNode) (ids masterId lastNode) u r).card <
      lastNode - masterId - 1 →
    counted nic t masterId lastNode u r < lastNode - masterId - 1

/-- A search that reaches every node in two hops cannot end too early, whatever it
counts. -/
theorem countsUp_of_dist_le_two {u : ℕ} (hu : u ∈ ids masterId lastNode)
    (h : ∀ v ∈ ids masterId lastNode, (graph nic t masterId lastNode).dist u v ≤ 2) :
    CountsUp nic t masterId lastNode u := by
  intro r hr hcard
  have hall := card_within_add_one hu fun v hv _ ↦ (h v hv).trans hr
  rw [card_ids] at hall
  omega

/-- The search from `u` never ends: the counter wraps around. -/
def Endless (nic : NicLimits) (t : Topology) (masterId lastNode u : ℕ) : Prop :=
  ∀ r ≥ 2, counted nic t masterId lastNode u r < lastNode - masterId - 1

theorem Level.linkMask (h : Symmetric nic t masterId lastNode) {u v r : ℕ} {st : Search}
    (hu : u ∈ ids masterId lastNode) (hv : v ∈ ids masterId lastNode) (hne : v ≠ u) (hr : 1 ≤ r)
    (hst : Level nic t masterId lastNode u r st) (hlink : Linked nic t u v) :
    LinkMask nic t u v (st.table v) := by
  have hone := (dist_eq_one_iff h hu hv hne).mpr hlink
  have hpos := dist_pos h hu hv hne
  obtain ⟨w, hadj, hdist, hmask⟩ := hst.route v hv hne (hone.trans hr)
  have hw := (Symmetric.range_of_adj hadj).2
  have hv' := mem_ids.mp hv
  have hreach := h.connected w v hw.1 hw.2 hv'.1 hv'.2
  obtain rfl := hreach.dist_eq_zero_iff.mp (by omega)
  exact hmask

/-- Between any two nodes the tables hold the links to a neighbour one hop closer. -/
def Shortest (nic : NicLimits) (t : Topology) (masterId lastNode : ℕ)
    (tables : ℕ → RoutingTable) : Prop :=
  ∀ u ∈ ids masterId lastNode, ∀ v ∈ ids masterId lastNode, u ≠ v → ∃ w,
    (graph nic t masterId lastNode).Adj u w ∧ (graph nic t masterId lastNode).dist w v + 1 =
      (graph nic t masterId lastNode).dist u v ∧ LinkMask nic t u w (tables u v)

theorem shortest_of_countsUp (h : Symmetric nic t masterId lastNode)
    (hcounts : ∀ u ∈ ids masterId lastNode, CountsUp nic t masterId lastNode u) {fuel : ℕ}
    {tables tables' : ℕ → RoutingTable}
    (hret : axiomComputeRoutingTables nic fuel t tables masterId lastNode = some tables') :
    Shortest nic t masterId lastNode tables' := by
  intro u hu v hv huv
  obtain ⟨r, st, hr, hlevel, htable, hcount, -⟩ := level_of_tables h hret hu
  -- the search has not ended before all nodes were entered
  have hfull : (ids masterId lastNode).card ≤
      (within (graph nic t masterId lastNode) (ids masterId lastNode) u r).card + 1 := by
    rw [card_ids]
    by_contra hlt
    have hearly := hcounts u hu r hr (by omega)
    omega
  obtain ⟨w, hadj, hdist, hmask⟩ :=
    hlevel.route v hv huv.symm (dist_le_of_card hu hfull hv huv.symm)
  exact ⟨w, hadj, hdist, htable ▸ hmask⟩

/-- The tables that are returned are complete exactly when no search ends too early,
or one never ends and nothing is returned. -/
theorem tables_complete_iff (h : Symmetric nic t masterId lastNode) (tables : ℕ → RoutingTable) :
    (∀ fuel tables', axiomComputeRoutingTables nic fuel t tables masterId lastNode = some tables' →
        Complete nic t masterId lastNode tables') ↔
      (∀ u ∈ ids masterId lastNode, CountsUp nic t masterId lastNode u) ∨
        ∃ u ∈ ids masterId lastNode, Endless nic t masterId lastNode u := by
  constructor
  · intro hcomplete
    by_contra hcond
    push Not at hcond
    obtain ⟨hearly, hends⟩ := hcond
    obtain ⟨u, hu, hnot⟩ := hearly
    simp only [CountsUp, not_forall, not_lt] at hnot
    obtain ⟨r, hr, hmissing, hcount⟩ := hnot
    have hend : ∀ u ∈ ids masterId lastNode, ∃ r ≥ 2,
        lastNode - masterId - 1 ≤ counted nic t masterId lastNode u r := by
      intro u hu
      have hnot := hends u hu
      simp only [Endless, not_forall, not_lt] at hnot
      obtain ⟨r, hr, hcount⟩ := hnot
      exact ⟨r, hr, hcount⟩
    obtain ⟨fuel, tables', htables⟩ := exists_tables h tables hend
    have hfull := hcomplete fuel tables' (htables fuel le_rfl)
    obtain ⟨r', st, hr', hlevel, htable, -, hbelow⟩ :=
      level_of_tables h (htables fuel le_rfl) hu
    -- the search from `u` ended at level `r` at the latest, so it has missed a node
    have hle : r' ≤ r := by
      by_contra hlt
      exact absurd (hbelow r hr (not_le.mp hlt)) (not_lt.mpr hcount)
    have hcard := card_within_add_one (G := graph nic t masterId lastNode) (r := r) hu
      fun v hv hvu ↦ by
        have hv' := mem_ids.mp hv
        have hu' := mem_ids.mp hu
        have hne := (hfull u v hu'.1 hu'.2 hv'.1 hv'.2 hvu.symm).1
        rw [htable] at hne
        exact ((hlevel.entered v hv hvu).mp hne).trans hle
    rw [card_ids] at hcard
    omega
  · rintro hcond fuel tables' hret u v hu hu' hv hv' huv
    have hu : u ∈ ids masterId lastNode := mem_ids.mpr ⟨hu, hu'⟩
    have hv : v ∈ ids masterId lastNode := mem_ids.mpr ⟨hv, hv'⟩
    rcases hcond with hcounts | ⟨w, hw, hendless⟩
    · obtain ⟨r, st, hr, hlevel, htable, hcount, -⟩ := level_of_tables h hret hu
      have hfull : (ids masterId lastNode).card ≤
          (within (graph nic t masterId lastNode) (ids masterId lastNode) u r).card + 1 := by
        rw [card_ids]
        by_contra hlt
        have hearly := hcounts u hu r hr (by omega)
        omega
      have hle := dist_le_of_card hu hfull hv huv.symm
      rw [htable]
      exact ⟨(hlevel.entered v hv huv.symm).mpr hle,
        hlevel.linkMask h hu hv huv.symm (by omega)⟩
    · obtain ⟨r, st, hr, -, -, hcount, -⟩ := level_of_tables h hret hw
      exact absurd (hendless r hr) (not_lt.mpr hcount)

/-- Three nodes in a row, the first two joined by two links. -/
def doubled3 : Topology := ofRows [[1, 1], [0, 0, 2], [1]]

theorem symmetric_doubled3 : Symmetric fourIfNic doubled3 0 3 := by
  refine symmetric_of_lower (by decide) ?_ ?_
  · intro a i _ ha hi
    have hi : i < 4 := hi
    interval_cases a <;> interval_cases i <;> decide
  · intro a hpos ha
    interval_cases a <;> decide

theorem dist_doubled3_le {u v : ℕ} (hu : u ∈ ids 0 3) (hv : v ∈ ids 0 3) :
    (graph fourIfNic doubled3 0 3).dist u v ≤ 2 := by
  -- all links are links of the node in the middle
  have hadj : ∀ a ∈ ids 0 3, a ≠ 1 → (graph fourIfNic doubled3 0 3).Adj 1 a := by
    intro a ha hne
    refine (symmetric_doubled3.adj_iff (by decide) (mem_ids.mp ha)).mpr ⟨hne.symm, ?_⟩
    have hlt := (mem_ids.mp ha).2
    interval_cases a
    · exact ⟨0, by decide, rfl⟩
    · exact absurd rfl hne
    · exact ⟨2, by decide, rfl⟩
  have hmiddle : (graph fourIfNic doubled3 0 3).dist u 1 ≤ 1 := by
    by_cases hone : u = 1
    · simp [hone]
    · exact (SimpleGraph.dist_eq_one_iff_adj.mpr (hadj u hu hone).symm).le
  by_cases hone : v = 1
  · exact hone ▸ hmiddle.trans (by decide)
  · exact (dist_le_succ (hadj v hv hone)).trans (by omega)

theorem tables_complete_doubled3 :
    Symmetric fourIfNic doubled3 0 3 ∧
      (∀ u ∈ ids 0 3, CountsUp fourIfNic doubled3 0 3 u) ∧ ∀ fuel tables',
      axiomComputeRoutingTables fourIfNic fuel doubled3 (fun _ _ ↦ 0) 0 3 = some tables' →
        Complete fourIfNic doubled3 0 3 tables' := by
  have hcounts : ∀ u ∈ ids 0 3, CountsUp fourIfNic doubled3 0 3 u :=
    fun u hu ↦ countsUp_of_dist_le_two hu fun v hv ↦ dist_doubled3_le hu hv
  exact ⟨symmetric_doubled3, hcounts,
    (tables_complete_iff symmetric_doubled3 fun _ _ ↦ 0).mpr (.inl hcounts)⟩

/-- Four nodes in a row, the first two joined by two links. -/
def doubled4 : Topology := ofRows [[1, 1], [0, 0, 2], [1, 3], [2]]

/-- The first node's table lacks the last node. -/
theorem doubled4_misses_last :
    Symmetric fourIfNic doubled4 0 4 ∧ ∃ tables',
      axiomComputeRoutingTables fourIfNic 3 doubled4 (fun _ _ ↦ 0) 0 4 = some tables' ∧
        tables' 0 3 = axiomNullRtInterface := by
  refine ⟨symmetric_of_lower (by decide) ?_ ?_, ?_⟩
  · intro a i _ ha hi
    have hi : i < 4 := hi
    interval_cases a <;> interval_cases i <;> decide
  · intro a hpos ha
    interval_cases a <;> decide
  · have hrun : (axiomComputeRoutingTables fourIfNic 3 doubled4 (fun _ _ ↦ 0) 0 4).map
        (fun tables ↦ tables 0 3) = some axiomNullRtInterface := by
      decide
    obtain ⟨tables', htables, hnull⟩ := Option.map_eq_some_iff.mp hrun
    exact ⟨tables', htables, hnull⟩

end AxiomApps.Routing
