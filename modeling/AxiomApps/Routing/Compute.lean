import AxiomApps.Nic

/-!
# Computing the routing tables

`axiom_compute_routing_tables` searches the matrix from every node in turn. A sweep
looks at the neighbours of all nodes listed in `neighbour_table[0]`, lists the new
ones in `neighbour_table[1]`, which is never cleared, and copies the latter over the
former; the sweeps end when `neighbours_counter`, a byte, has reached the number of
the other nodes. A search that has not ended after `fuel` sweeps gives `none`.
-/

namespace AxiomApps.Routing

def axiomNullRtInterface : IfMask := 0

/-- The variables of the search from one node: its routing table, the two rows of
`neighbour_table` and the counter. -/
structure Search where
  table : RoutingTable
  neighbour0 : ℕ → ℕ
  neighbour1 : ℕ → ℕ
  neighboursCounter : ℕ

def axiomInitRoutingNeighbour : Search where
  table _ := axiomNullRtInterface
  neighbour0 _ := axiomNullNode
  neighbour1 _ := axiomNullNode
  neighboursCounter := 0

section Search

variable (nic : NicLimits) (t : Topology) (masterId lastNode actual : ℕ)

/-- One interface of `axiom_compute_neighbours_route`. -/
def neighbourRoute (st : Search) (i : ℕ) : Search :=
  if t actual i = axiomNullNode then st
  else
    let neighbour := t actual i
    { st with
      table := Function.update st.table neighbour (st.table neighbour ||| 1#8 <<< i)
      neighbour0 := Function.update st.neighbour0 neighbour neighbour
      neighboursCounter := (st.neighboursCounter + 1) % 256 }

def axiomComputeNeighboursRoute : Search :=
  (List.range nic.interfacesNum).foldl (neighbourRoute t actual) axiomInitRoutingNeighbour

/-- One interface of a first neighbour in the inner loop of a sweep. -/
def secondNeighbour (first : ℕ) (st : Search) (i : ℕ) : Search :=
  let second := t first i
  if second ≠ axiomNullNode ∧ second ≠ actual then
    if st.table second = axiomNullRtInterface then
      { st with
        table := Function.update st.table second (st.table first)
        neighbour1 := Function.update st.neighbour1 second second
        neighboursCounter := (st.neighboursCounter + 1) % 256 }
    else st
  else st

/-- One turn of the loop over `node_index` in a sweep. -/
def visitNode (st : Search) (nodeIndex : ℕ) : Search :=
  if st.neighbour0 nodeIndex = axiomNullNode then st
  else (List.range nic.interfacesNum).foldl
    (secondNeighbour t actual (st.neighbour0 nodeIndex)) st

/-- The body of the `do … while` loop. -/
def sweep (st : Search) : Search :=
  let st' := (List.range' masterId (lastNode - masterId)).foldl (visitNode nic t actual) st
  { st' with neighbour0 := st'.neighbour1 }

/-- The `do … while` loop. -/
def sweeps : ℕ → Search → Option Search
  | 0, _ => none
  | fuel + 1, st =>
      let st' := sweep nic t masterId lastNode actual st
      if st'.neighboursCounter < lastNode - masterId - 1 then sweeps fuel st' else some st'

end Search

def axiomComputeRoutingTables (nic : NicLimits) (fuel : ℕ) (t : Topology)
    (tables : ℕ → RoutingTable) (masterId lastNode : ℕ) : Option (ℕ → RoutingTable) :=
  (List.range' masterId (lastNode - masterId)).foldlM
    (fun tables actual ↦
      (sweeps nic t masterId lastNode actual fuel (axiomComputeNeighboursRoute nic t actual)).map
        fun st ↦ Function.update tables actual st.table)
    tables

/-! ## The loop over the nodes -/

variable {nic : NicLimits} {t : Topology} {masterId lastNode actual : ℕ}

theorem sweeps_mono {fuel fuel' : ℕ} {st st' : Search} (hle : fuel ≤ fuel')
    (h : sweeps nic t masterId lastNode actual fuel st = some st') :
    sweeps nic t masterId lastNode actual fuel' st = some st' := by
  induction fuel generalizing fuel' st with
  | zero => cases h
  | succ fuel ih =>
      obtain ⟨fuel', rfl⟩ := Nat.exists_eq_add_of_le' (Nat.one_le_of_lt hle)
      simp only [sweeps] at h ⊢
      split
      · rename_i hlt
        rw [if_pos hlt] at h
        exact ih (by omega) h
      · rename_i hlt
        rwa [if_neg hlt] at h

theorem foldlM_tables {f : ℕ → Option Search} {nodes : List ℕ} (hnodup : nodes.Nodup)
    {tables tables' : ℕ → RoutingTable} :
    nodes.foldlM (fun tables u ↦ (f u).map fun st ↦ Function.update tables u st.table) tables =
        some tables' ↔
      (∀ u ∈ nodes, ∃ st, f u = some st ∧ tables' u = st.table) ∧
        ∀ u ∉ nodes, tables' u = tables u := by
  induction nodes generalizing tables with
  | nil =>
      simp only [List.foldlM_nil, List.not_mem_nil, IsEmpty.forall_iff, implies_true, true_and,
        not_false_eq_true, forall_true_left]
      exact ⟨fun h u ↦ by rw [← Option.some.inj h], fun h ↦ congrArg some (funext h).symm⟩
  | cons v nodes ih =>
      obtain ⟨hv, hnodup⟩ := List.nodup_cons.mp hnodup
      rw [List.foldlM_cons]
      cases hf : f v with
      | none =>
          simp only [Option.map_none, Option.bind_eq_bind, Option.bind_none, reduceCtorEq,
            false_iff, not_and]
          intro hall
          obtain ⟨st, hst, -⟩ := hall v (by simp)
          cases hf.symm.trans hst
      | some st =>
          simp only [Option.map_some, Option.bind_eq_bind, Option.bind_some]
          rw [ih hnodup]
          constructor
          · rintro ⟨hin, hout⟩
            refine ⟨fun u hu ↦ ?_, fun u hu ↦ ?_⟩
            · rcases List.mem_cons.mp hu with rfl | hu
              · exact ⟨st, hf, by rw [hout u hv, Function.update_self]⟩
              · exact hin u hu
            · rw [List.mem_cons, not_or] at hu
              rw [hout u hu.2, Function.update_of_ne hu.1]
          · rintro ⟨hin, hout⟩
            refine ⟨fun u hu ↦ hin u (List.mem_cons_of_mem _ hu), fun u hu ↦ ?_⟩
            by_cases huv : u = v
            · subst huv
              obtain ⟨st', hst', htable⟩ := hin u (by simp)
              cases hf.symm.trans hst'
              rw [htable, Function.update_self]
            · rw [hout u (by simp [huv, hu]), Function.update_of_ne huv]

theorem axiomComputeRoutingTables_eq_some {fuel : ℕ} {tables tables' : ℕ → RoutingTable} :
    axiomComputeRoutingTables nic fuel t tables masterId lastNode = some tables' ↔
      (∀ u, masterId ≤ u → u < lastNode → ∃ st,
        sweeps nic t masterId lastNode u fuel (axiomComputeNeighboursRoute nic t u) = some st ∧
          tables' u = st.table) ∧
        ∀ u, ¬ (masterId ≤ u ∧ u < lastNode) → tables' u = tables u := by
  have hmem : ∀ u, u ∈ List.range' masterId (lastNode - masterId) ↔
      masterId ≤ u ∧ u < lastNode := by
    intro u
    rw [List.mem_range'_1]
    omega
  rw [axiomComputeRoutingTables, foldlM_tables List.nodup_range']
  simp only [hmem, and_imp]

/-! ## Searches that never end -/

/-- With nothing listed the sweeps find nothing. -/
theorem sweeps_eq_none {st : Search} (hfirst : ∀ v, st.neighbour0 v = axiomNullNode)
    (hsecond : ∀ v, st.neighbour1 v = axiomNullNode)
    (hcount : st.neighboursCounter < lastNode - masterId - 1) (fuel : ℕ) :
    sweeps nic t masterId lastNode actual fuel st = none := by
  induction fuel generalizing st with
  | zero => rfl
  | succ fuel ih =>
      have hfold : ∀ nodes : List ℕ, nodes.foldl (visitNode nic t actual) st = st := by
        intro nodes
        induction nodes with
        | nil => rfl
        | cons k nodes ihn =>
            rw [List.foldl_cons, visitNode, if_pos (hfirst k)]
            exact ihn
      simp only [sweeps, sweep, hfold, if_pos hcount]
      exact ih hsecond hsecond hcount

/-- A network in which the first of several ids has no link is searched for ever. -/
theorem axiomComputeRoutingTables_eq_none
    (hnull : ∀ i < nic.interfacesNum, t masterId i = axiomNullNode)
    (hmore : masterId + 1 < lastNode) (fuel : ℕ) (tables : ℕ → RoutingTable) :
    axiomComputeRoutingTables nic fuel t tables masterId lastNode = none := by
  have hinit : axiomComputeNeighboursRoute nic t masterId = axiomInitRoutingNeighbour := by
    have hfold : ∀ k ≤ nic.interfacesNum,
        (List.range k).foldl (neighbourRoute t masterId) axiomInitRoutingNeighbour =
          axiomInitRoutingNeighbour := by
      intro k
      induction k with
      | zero => exact fun _ ↦ rfl
      | succ k ih =>
          intro hk
          rw [List.range_succ, List.foldl_append, ih (by omega), List.foldl_cons, List.foldl_nil,
            neighbourRoute, if_pos (hnull k hk)]
    exact hfold _ le_rfl
  cases htables : axiomComputeRoutingTables nic fuel t tables masterId lastNode with
  | none => rfl
  | some tables' =>
      obtain ⟨st, hst, -⟩ := (axiomComputeRoutingTables_eq_some.mp htables).1 masterId le_rfl
        (by omega)
      rw [hinit, sweeps_eq_none (fun _ ↦ rfl) (fun _ ↦ rfl)
        (by simp only [axiomInitRoutingNeighbour]; omega)] at hst
      cases hst

end AxiomApps.Routing
