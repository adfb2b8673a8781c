import AxiomApps.Routing.Compute
import AxiomApps.Lib.Levels
import AxiomApps.Lib.Forwarding

/-!
# The tables hold shortest routes

After `r - 1` sweeps the search from `u` has entered exactly the nodes at distance at
most `r`, each with the interfaces to a neighbour of `u` that is one hop closer. The
counter holds the number of links of `u` and of the nodes entered by the sweeps: it
counts a neighbour once for each link.
-/

namespace AxiomApps.Routing

open Levels

variable (nic : NicLimits) (t : Topology) (masterId lastNode : ℕ)

def Linked (a b : ℕ) : Prop := ∃ i < nic.interfacesNum, t a i = b

/-- The graph of the matrix on the ids of the network. -/
def graph : SimpleGraph ℕ :=
  SimpleGraph.fromRel fun a b ↦
    (masterId ≤ a ∧ a < lastNode) ∧ (masterId ≤ b ∧ b < lastNode) ∧ Linked nic t a b

/-- A symmetric connected matrix on the ids from `masterId` up to `lastNode`. -/
structure Symmetric : Prop where
  lastNode_le : lastNode ≤ axiomNullNode
  closed : ∀ a i, masterId ≤ a → a < lastNode → i < nic.interfacesNum → t a i ≠ axiomNullNode →
    masterId ≤ t a i ∧ t a i < lastNode
  symm : ∀ a i, masterId ≤ a → a < lastNode → i < nic.interfacesNum → t a i ≠ axiomNullNode →
    Linked nic t (t a i) a
  connected : ∀ a b, masterId ≤ a → a < lastNode → masterId ≤ b → b < lastNode →
    (graph nic t masterId lastNode).Reachable a b

/-- The mask of the interfaces of `a` that lead to `b`. -/
def LinkMask (a b : ℕ) (mask : IfMask) : Prop :=
  ∀ i, mask.getLsbD i = true ↔ i < nic.interfacesNum ∧ t a i = b

def links (a : ℕ) : Finset ℕ :=
  (Finset.range nic.interfacesNum).filter fun i ↦ t a i ≠ axiomNullNode

variable {nic t masterId lastNode} {u v a b r : ℕ}

namespace Symmetric

theorem adj_iff (h : Symmetric nic t masterId lastNode) (ha : masterId ≤ a ∧ a < lastNode)
    (hb : masterId ≤ b ∧ b < lastNode) :
    (graph nic t masterId lastNode).Adj a b ↔ a ≠ b ∧ Linked nic t a b := by
  have hnull : ∀ {c}, c < lastNode → c ≠ axiomNullNode := by
    intro c hc
    have hle := h.lastNode_le
    omega
  rw [graph, SimpleGraph.fromRel_adj]
  constructor
  · rintro ⟨hne, ⟨-, -, hlink⟩ | ⟨-, -, i, hi, hba⟩⟩
    · exact ⟨hne, hlink⟩
    · refine ⟨hne, ?_⟩
      rw [← hba]
      refine h.symm b i hb.1 hb.2 hi ?_
      rw [hba]
      exact hnull ha.2
  · rintro ⟨hne, hlink⟩
    exact ⟨hne, .inl ⟨ha, hb, hlink⟩⟩

theorem range_of_adj (hadj : (graph nic t masterId lastNode).Adj a b) :
    (masterId ≤ a ∧ a < lastNode) ∧ (masterId ≤ b ∧ b < lastNode) := by
  rw [graph, SimpleGraph.fromRel_adj] at hadj
  rcases hadj with ⟨-, ⟨ha, hb, -⟩ | ⟨hb, ha, -⟩⟩
  · exact ⟨ha, hb⟩
  · exact ⟨ha, hb⟩

end Symmetric

/-! ## The first level -/

/-- What the first `k` interfaces of `u` have entered. -/
structure FirstLevel (nic : NicLimits) (t : Topology) (u k : ℕ) (st : Search) : Prop where
  bits : ∀ v i, v ≠ axiomNullNode → ((st.table v).getLsbD i = true ↔ i < k ∧ t u i = v)
  neighbour0 : ∀ v, st.neighbour0 v = if ∃ i < k, t u i = v then v else axiomNullNode
  neighbour1 : ∀ v, st.neighbour1 v = axiomNullNode
  counter : st.neighboursCounter =
    ((Finset.range k).filter fun i ↦ t u i ≠ axiomNullNode).card % 256

theorem firstLevel_init : FirstLevel nic t u 0 axiomInitRoutingNeighbour where
  bits v i _ := by simp [axiomInitRoutingNeighbour, axiomNullRtInterface]
  neighbour0 v := by simp [axiomInitRoutingNeighbour]
  neighbour1 v := rfl
  counter := by simp [axiomInitRoutingNeighbour]

/-- Interface `k` makes a difference to its own neighbour only. -/
theorem lt_succ_iff_of_ne {k : ℕ} (hv : v ≠ t u k) (i : ℕ) :
    (i < k + 1 ∧ t u i = v) ↔ (i < k ∧ t u i = v) := by
  constructor
  · rintro ⟨hi, hv'⟩
    rcases Nat.lt_succ_iff_lt_or_eq.mp hi with hi | rfl
    · exact ⟨hi, hv'⟩
    · exact absurd hv'.symm hv
  · rintro ⟨hi, hv'⟩
    exact ⟨by omega, hv'⟩

theorem FirstLevel.succ {k : ℕ} {st : Search} (h : FirstLevel nic t u k st) (hk : k < 8) :
    FirstLevel nic t u (k + 1) (neighbourRoute t u st k) := by
  by_cases hnull : t u k = axiomNullNode
  · rw [neighbourRoute, if_pos hnull]
    refine ⟨?_, ?_, h.neighbour1, ?_⟩
    · intro v i hv
      rw [h.bits v i hv, lt_succ_iff_of_ne (hnull ▸ hv)]
    · intro v
      by_cases hv : v = axiomNullNode
      · rw [h.neighbour0 v, hv, ite_self, ite_self]
      · rw [h.neighbour0 v]
        simp only [lt_succ_iff_of_ne (hnull ▸ hv)]
    · rw [Finset.range_add_one, Finset.filter_insert, if_neg (not_not.mpr hnull)]
      exact h.counter
  · rw [neighbourRoute, if_neg hnull]
    refine ⟨?_, ?_, h.neighbour1, ?_⟩
    · intro v i hv
      by_cases hvk : v = t u k
      · subst hvk
        have hbit : (1#8 <<< k).getLsbD i = true ↔ i = k := getLsbD_axiomCodifyRoutingMask hk
        simp only [Function.update_self, BitVec.getLsbD_or, Bool.or_eq_true, hbit, h.bits _ i hv]
        constructor
        · rintro (⟨hi, hv'⟩ | rfl)
          · exact ⟨by omega, hv'⟩
          · exact ⟨by omega, rfl⟩
        · rintro ⟨hi, hv'⟩
          rcases Nat.lt_succ_iff_lt_or_eq.mp hi with hi | rfl
          · exact .inl ⟨hi, hv'⟩
          · exact .inr rfl
      · simp only [Function.update_of_ne hvk, h.bits v i hv, lt_succ_iff_of_ne hvk]
    · intro v
      by_cases hvk : v = t u k
      · subst hvk
        simp only [Function.update_self]
        rw [if_pos ⟨k, by omega, rfl⟩]
      · simp only [Function.update_of_ne hvk, h.neighbour0 v, lt_succ_iff_of_ne hvk]
    · rw [Finset.range_add_one, Finset.filter_insert, if_pos hnull,
        Finset.card_insert_of_notMem (by simp)]
      simp only [h.counter]
      omega

theorem firstLevel :
    FirstLevel nic t u nic.interfacesNum (axiomComputeNeighboursRoute nic t u) := by
  have hall : ∀ k ≤ nic.interfacesNum, FirstLevel nic t u k
      ((List.range k).foldl (neighbourRoute t u) axiomInitRoutingNeighbour) := by
    intro k
    induction k with
    | zero => exact fun _ ↦ firstLevel_init
    | succ k ih =>
        intro hk
        rw [List.range_succ, List.foldl_append]
        exact (ih (by omega)).succ (by have := nic.interfacesNum_le; omega)
  exact hall _ le_rfl

/-! ## A sweep -/

/-- What a sweep that started from `st₀` has done when it has looked at the interfaces
`Done`: it has entered the nodes `F`, each with the mask of the node it was found from. -/
structure Scan (t : Topology) (u : ℕ) (st₀ : Search) (Done : ℕ → ℕ → Prop) (F : Finset ℕ)
    (st : Search) : Prop where
  found : ∀ v, v ∈ F ↔ v ≠ axiomNullNode ∧ v ≠ u ∧ st₀.table v = axiomNullRtInterface ∧
    ∃ f i, Done f i ∧ t f i = v
  old : ∀ v, v ∉ F → st.table v = st₀.table v ∧ st.neighbour1 v = st₀.neighbour1 v
  new : ∀ v ∈ F, st.neighbour1 v = v ∧ ∃ f i, Done f i ∧ t f i = v ∧ st.table v = st₀.table f
  neighbour0 : st.neighbour0 = st₀.neighbour0
  counter : st.neighboursCounter = (st₀.neighboursCounter + F.card) % 256

section Scan

variable {st₀ st : Search} {Done : ℕ → ℕ → Prop} {F : Finset ℕ}

theorem Scan.congr {Done' : ℕ → ℕ → Prop} (h : Scan t u st₀ Done F st)
    (hiff : ∀ f i, Done f i ↔ Done' f i) : Scan t u st₀ Done' F st := by
  have heq : Done = Done' := funext fun f ↦ funext fun i ↦ propext (hiff f i)
  rwa [← heq]

/-- Nothing is entered when the node found is not new. -/
theorem Scan.unchanged (h : Scan t u st₀ Done F st) {f i : ℕ}
    (hin : t f i ≠ axiomNullNode → t f i ≠ u → st₀.table (t f i) = axiomNullRtInterface →
      t f i ∈ F) :
    Scan t u st₀ (fun f' i' ↦ Done f' i' ∨ f' = f ∧ i' = i) F st := by
  refine ⟨fun v ↦ ?_, h.old, fun v hv ↦ ?_, h.neighbour0, h.counter⟩
  · rw [h.found v]
    constructor
    · rintro ⟨hnull, hvu, hzero, f', i', hdone, hv⟩
      exact ⟨hnull, hvu, hzero, f', i', .inl hdone, hv⟩
    · rintro ⟨hnull, hvu, hzero, f', i', hdone | ⟨rfl, rfl⟩, rfl⟩
      · exact ⟨hnull, hvu, hzero, f', i', hdone, rfl⟩
      · exact (h.found _).mp (hin hnull hvu hzero)
  · obtain ⟨hone, f', i', hdone, hv'⟩ := h.new v hv
    exact ⟨hone, f', i', .inl hdone, hv'⟩

/-- A new node is entered with the mask of the node it was found from. -/
theorem Scan.enter (h : Scan t u st₀ Done F st) {f i : ℕ} (hf : f ∉ F) (hnew : t f i ∉ F)
    (hnull : t f i ≠ axiomNullNode) (hne : t f i ≠ u)
    (hzero : st₀.table (t f i) = axiomNullRtInterface) :
    Scan t u st₀ (fun f' i' ↦ Done f' i' ∨ f' = f ∧ i' = i) (insert (t f i) F)
      { st with
        table := Function.update st.table (t f i) (st.table f)
        neighbour1 := Function.update st.neighbour1 (t f i) (t f i)
        neighboursCounter := (st.neighboursCounter + 1) % 256 } := by
  refine ⟨fun v ↦ ?_, fun v hv ↦ ?_, fun v hv ↦ ?_, h.neighbour0, ?_⟩
  · rw [Finset.mem_insert, h.found v]
    constructor
    · rintro (rfl | ⟨hnull, hvu, hz, f', i', hdone, hv⟩)
      · exact ⟨hnull, hne, hzero, f, i, .inr ⟨rfl, rfl⟩, rfl⟩
      · exact ⟨hnull, hvu, hz, f', i', .inl hdone, hv⟩
    · rintro ⟨hnull, hvu, hz, f', i', hdone | ⟨rfl, rfl⟩, rfl⟩
      · exact .inr ⟨hnull, hvu, hz, f', i', hdone, rfl⟩
      · exact .inl rfl
  · rw [Finset.mem_insert, not_or] at hv
    simp only [Function.update_of_ne hv.1]
    exact h.old v hv.2
  · by_cases hvt : v = t f i
    · subst hvt
      refine ⟨by simp, f, i, .inr ⟨rfl, rfl⟩, rfl, ?_⟩
      simp only [Function.update_self]
      exact (h.old f hf).1
    · obtain ⟨hone, f', i', hdone, hv', htable⟩ :=
        h.new v ((Finset.mem_insert.mp hv).resolve_left hvt)
      simp only [Function.update_of_ne hvt]
      exact ⟨hone, f', i', .inl hdone, hv', htable⟩
  · rw [Finset.card_insert_of_notMem hnew]
    simp only [h.counter]
    omega

/-- One interface of a node that was entered before the sweep. -/
theorem Scan.second (h : Scan t u st₀ Done F st) {f : ℕ}
    (hf : st₀.table f ≠ axiomNullRtInterface)
    (hold : ∀ f i, Done f i → st₀.table f ≠ axiomNullRtInterface) (i : ℕ) :
    ∃ F', Scan t u st₀ (fun f' i' ↦ Done f' i' ∨ f' = f ∧ i' = i) F'
      (secondNeighbour t u f st i) := by
  have hfF : f ∉ F := fun hmem ↦ hf ((h.found f).mp hmem).2.2.1
  by_cases hcond : t f i ≠ axiomNullNode ∧ t f i ≠ u
  · by_cases hzero : st.table (t f i) = axiomNullRtInterface
    · have hnew : t f i ∉ F := by
        intro hmem
        obtain ⟨-, f', i', hdone, -, htable⟩ := h.new _ hmem
        exact hold f' i' hdone (htable.symm.trans hzero)
      have hzero₀ : st₀.table (t f i) = axiomNullRtInterface := by
        rw [← (h.old _ hnew).1]
        exact hzero
      rw [secondNeighbour, if_pos hcond, if_pos hzero]
      exact ⟨_, h.enter hfF hnew hcond.1 hcond.2 hzero₀⟩
    · rw [secondNeighbour, if_pos hcond, if_neg hzero]
      refine ⟨F, h.unchanged fun _ _ hz ↦ ?_⟩
      by_contra hmem
      exact hzero ((h.old _ hmem).1.trans hz)
  · rw [secondNeighbour, if_neg hcond]
    exact ⟨F, h.unchanged fun hnull hne ↦ absurd ⟨hnull, hne⟩ hcond⟩

theorem Scan.interfaces (h : Scan t u st₀ Done F st) {f : ℕ}
    (hf : st₀.table f ≠ axiomNullRtInterface)
    (hold : ∀ f i, Done f i → st₀.table f ≠ axiomNullRtInterface) (k : ℕ) :
    ∃ F', Scan t u st₀ (fun f' i' ↦ Done f' i' ∨ f' = f ∧ i' < k) F'
      ((List.range k).foldl (secondNeighbour t u f) st) := by
  induction k with
  | zero => exact ⟨F, h.congr (by simp)⟩
  | succ k ih =>
      obtain ⟨F₁, h₁⟩ := ih
      rw [List.range_succ, List.foldl_append]
      have hold₁ : ∀ f' i', (Done f' i' ∨ f' = f ∧ i' < k) →
          st₀.table f' ≠ axiomNullRtInterface := by
        rintro f' i' (hdone | ⟨rfl, -⟩)
        · exact hold f' i' hdone
        · exact hf
      obtain ⟨F₂, h₂⟩ := h₁.second hf hold₁ k
      refine ⟨F₂, h₂.congr fun f' i' ↦ ?_⟩
      constructor
      · rintro ((hdone | ⟨rfl, hi⟩) | ⟨rfl, rfl⟩)
        · exact .inl hdone
        · exact .inr ⟨rfl, by omega⟩
        · exact .inr ⟨rfl, by omega⟩
      · rintro (hdone | ⟨rfl, hi⟩)
        · exact .inl (.inl hdone)
        · rcases Nat.lt_succ_iff_lt_or_eq.mp hi with hi | rfl
          · exact .inl (.inr ⟨rfl, hi⟩)
          · exact .inr ⟨rfl, rfl⟩

theorem Scan.nodes (nic : NicLimits) (h : Scan t u st₀ Done F st)
    (hlist : ∀ f, st₀.neighbour0 f ≠ axiomNullNode →
      st₀.neighbour0 f = f ∧ st₀.table f ≠ axiomNullRtInterface)
    (hold : ∀ f i, Done f i → st₀.table f ≠ axiomNullRtInterface) (nodes : List ℕ) :
    ∃ F', Scan t u st₀ (fun f i ↦ Done f i ∨
        f ∈ nodes ∧ st₀.neighbour0 f ≠ axiomNullNode ∧ i < nic.interfacesNum) F'
      (nodes.foldl (visitNode nic t u) st) := by
  induction nodes generalizing st Done F with
  | nil => exact ⟨F, h.congr (by simp)⟩
  | cons x nodes ih =>
      rw [List.foldl_cons]
      by_cases hx : st₀.neighbour0 x = axiomNullNode
      · have hskip : visitNode nic t u st x = st := by
          rw [visitNode, h.neighbour0, if_pos hx]
        rw [hskip]
        obtain ⟨F', h'⟩ := ih h hold
        refine ⟨F', h'.congr fun f i ↦ ?_⟩
        constructor
        · rintro (hdone | ⟨hmem, hrest⟩)
          · exact .inl hdone
          · exact .inr ⟨List.mem_cons_of_mem _ hmem, hrest⟩
        · rintro (hdone | ⟨hmem, hne, hi⟩)
          · exact .inl hdone
          · rcases List.mem_cons.mp hmem with rfl | hmem
            · exact absurd hx hne
            · exact .inr ⟨hmem, hne, hi⟩
      · obtain ⟨hself, hentered⟩ := hlist x hx
        have hvisit : visitNode nic t u st x =
            (List.range nic.interfacesNum).foldl (secondNeighbour t u x) st := by
          rw [visitNode, h.neighbour0, if_neg hx, hself]
        rw [hvisit]
        obtain ⟨F₁, h₁⟩ := h.interfaces hentered hold nic.interfacesNum
        have hold₁ : ∀ f i, (Done f i ∨ f = x ∧ i < nic.interfacesNum) →
            st₀.table f ≠ axiomNullRtInterface := by
          rintro f i (hdone | ⟨rfl, -⟩)
          · exact hold f i hdone
          · exact hentered
        obtain ⟨F₂, h₂⟩ := ih h₁ hold₁
        refine ⟨F₂, h₂.congr fun f i ↦ ?_⟩
        constructor
        · rintro ((hdone | ⟨rfl, hi⟩) | ⟨hmem, hrest⟩)
          · exact .inl hdone
          · exact .inr ⟨List.mem_cons_self, hx, hi⟩
          · exact .inr ⟨List.mem_cons_of_mem _ hmem, hrest⟩
        · rintro (hdone | ⟨hmem, hne, hi⟩)
          · exact .inl (.inl hdone)
          · rcases List.mem_cons.mp hmem with rfl | hmem
            · exact .inl (.inr ⟨rfl, hi⟩)
            · exact .inr ⟨hmem, hne, hi⟩

theorem scan_init (hbyte : st₀.neighboursCounter < 256) :
    Scan t u st₀ (fun _ _ ↦ False) ∅ st₀ where
  found v := by simp
  old v _ := ⟨rfl, rfl⟩
  new v hv := by simp at hv
  neighbour0 := rfl
  counter := by simp [Nat.mod_eq_of_lt hbyte]

end Scan

/-! ## Level by level -/

def ids (masterId lastNode : ℕ) : Finset ℕ := Finset.Ico masterId lastNode

theorem mem_ids : a ∈ ids masterId lastNode ↔ masterId ≤ a ∧ a < lastNode := Finset.mem_Ico

theorem card_ids (masterId lastNode : ℕ) : (ids masterId lastNode).card = lastNode - masterId :=
  Nat.card_Ico masterId lastNode

/-- What the counter holds when the nodes within `r` have been entered. -/
noncomputable def counted (nic : NicLimits) (t : Topology) (masterId lastNode u r : ℕ) : ℕ :=
  ((links nic t u).card +
    ((within (graph nic t masterId lastNode) (ids masterId lastNode) u r).card -
      (within (graph nic t masterId lastNode) (ids masterId lastNode) u 1).card)) % 256

/-- The search from `u` has entered the nodes within `r`. -/
structure Level (nic : NicLimits) (t : Topology) (masterId lastNode u r : ℕ) (st : Search) :
    Prop where
  entered : ∀ v ∈ ids masterId lastNode, v ≠ u → (st.table v ≠ axiomNullRtInterface ↔
    (graph nic t masterId lastNode).dist u v ≤ r)
  route : ∀ v ∈ ids masterId lastNode, v ≠ u → (graph nic t masterId lastNode).dist u v ≤ r →
    ∃ w, (graph nic t masterId lastNode).Adj u w ∧
      (graph nic t masterId lastNode).dist w v + 1 = (graph nic t masterId lastNode).dist u v ∧
      LinkMask nic t u w (st.table v)
  listed : ∀ v, st.neighbour0 v ≠ axiomNullNode →
    st.neighbour0 v = v ∧ st.table v ≠ axiomNullRtInterface
  listed1 : ∀ v, st.neighbour1 v ≠ axiomNullNode →
    st.neighbour1 v = v ∧ st.table v ≠ axiomNullRtInterface
  frontier : ∀ v ∈ ids masterId lastNode, v ≠ u →
    (graph nic t masterId lastNode).dist u v = r → st.neighbour0 v = v
  counter : st.neighboursCounter = counted nic t masterId lastNode u r

section Level

variable {st : Search}

theorem ne_null (h : Symmetric nic t masterId lastNode) (hv : v ∈ ids masterId lastNode) :
    v ≠ axiomNullNode := by
  have hlt := (mem_ids.mp hv).2
  have hle := h.lastNode_le
  omega

theorem linkMask_ne_zero {mask : IfMask} (hmask : LinkMask nic t a b mask)
    (hlink : Linked nic t a b) : mask ≠ axiomNullRtInterface := by
  rintro rfl
  obtain ⟨i, hi, hb⟩ := hlink
  have hbit := (hmask i).mpr ⟨hi, hb⟩
  simp [axiomNullRtInterface] at hbit

theorem dist_pos (h : Symmetric nic t masterId lastNode) (hu : u ∈ ids masterId lastNode)
    (hv : v ∈ ids masterId lastNode) (hne : v ≠ u) :
    0 < (graph nic t masterId lastNode).dist u v := by
  rw [mem_ids] at hu hv
  exact (h.connected u v hu.1 hu.2 hv.1 hv.2).pos_dist_of_ne hne.symm

theorem dist_eq_one_iff (h : Symmetric nic t masterId lastNode) (hu : u ∈ ids masterId lastNode)
    (hv : v ∈ ids masterId lastNode) (hne : v ≠ u) :
    (graph nic t masterId lastNode).dist u v ≤ 1 ↔ Linked nic t u v := by
  have hpos := dist_pos h hu hv hne
  have hadj := h.adj_iff (mem_ids.mp hu) (mem_ids.mp hv)
  constructor
  · intro hle
    exact (hadj.mp (SimpleGraph.dist_eq_one_iff_adj.mp (by omega))).2
  · intro hlink
    exact (SimpleGraph.dist_eq_one_iff_adj.mpr (hadj.mpr ⟨hne.symm, hlink⟩)).le

theorem level_one (h : Symmetric nic t masterId lastNode) (hu : u ∈ ids masterId lastNode) :
    Level nic t masterId lastNode u 1 (axiomComputeNeighboursRoute nic t u) := by
  have hfirst : FirstLevel nic t u nic.interfacesNum (axiomComputeNeighboursRoute nic t u) :=
    firstLevel
  have hmask : ∀ v, v ≠ axiomNullNode →
      LinkMask nic t u v ((axiomComputeNeighboursRoute nic t u).table v) :=
    fun v hv i ↦ hfirst.bits v i hv
  have hzero : ∀ v, v ≠ axiomNullNode →
      ((axiomComputeNeighboursRoute nic t u).table v ≠ axiomNullRtInterface ↔
        Linked nic t u v) := by
    intro v hv
    refine ⟨fun hne ↦ ?_, linkMask_ne_zero (hmask v hv)⟩
    by_contra hlink
    refine hne (BitVec.eq_of_getLsbD_eq fun i _ ↦ ?_)
    change _ = (0#8).getLsbD i
    rw [BitVec.getLsbD_zero, ← Bool.not_eq_true, hfirst.bits v i hv]
    rintro ⟨hi, hiv⟩
    exact hlink ⟨i, hi, hiv⟩
  refine ⟨?_, ?_, ?_, ?_, ?_, ?_⟩
  · intro v hv hne
    rw [hzero v (ne_null h hv), dist_eq_one_iff h hu hv hne]
  · intro v hv hne hle
    have hlink := (dist_eq_one_iff h hu hv hne).mp hle
    refine ⟨v, (h.adj_iff (mem_ids.mp hu) (mem_ids.mp hv)).mpr ⟨hne.symm, hlink⟩, ?_,
      hmask v (ne_null h hv)⟩
    have hpos := dist_pos h hu hv hne
    rw [SimpleGraph.dist_self]
    omega
  · intro v hne
    rw [hfirst.neighbour0 v] at hne ⊢
    by_cases hlink : ∃ i < nic.interfacesNum, t u i = v
    · rw [if_pos hlink] at hne ⊢
      exact ⟨rfl, (hzero v hne).mpr hlink⟩
    · exact absurd (if_neg hlink) hne
  · intro v hne
    exact absurd (hfirst.neighbour1 v) hne
  · intro v hv hne hdist
    rw [hfirst.neighbour0 v]
    exact if_pos ((dist_eq_one_iff h hu hv hne).mp hdist.le)
  · rw [hfirst.counter, counted, Nat.sub_self, Nat.add_zero]
    rfl

/-- A node found from a listed one is on the next level, and was found from the last. -/
theorem Level.found (h : Symmetric nic t masterId lastNode) (hu : u ∈ ids masterId lastNode)
    (hr : 1 ≤ r) (hst : Level nic t masterId lastNode u r st) {f i : ℕ}
    (hf : f ∈ ids masterId lastNode) (hlisted : st.neighbour0 f ≠ axiomNullNode)
    (hi : i < nic.interfacesNum) (hnull : t f i ≠ axiomNullNode) (hne : t f i ≠ u)
    (hzero : st.table (t f i) = axiomNullRtInterface) :
    f ≠ u ∧ t f i ∈ ids masterId lastNode ∧ (graph nic t masterId lastNode).Adj f (t f i) ∧
      (graph nic t masterId lastNode).dist u f = r ∧
      (graph nic t masterId lastNode).dist u (t f i) = r + 1 := by
  have hf' := mem_ids.mp hf
  have hv : t f i ∈ ids masterId lastNode := mem_ids.mpr (h.closed f i hf'.1 hf'.2 hi hnull)
  have hfar : ¬ (graph nic t masterId lastNode).dist u (t f i) ≤ r := by
    rw [← hst.entered _ hv hne]
    exact not_not.mpr hzero
  have hfu : f ≠ u := by
    rintro rfl
    have hone := (dist_eq_one_iff h hu hv hne).mpr ⟨i, hi, rfl⟩
    omega
  have hentered := (hst.listed f hlisted).2
  have hfv : f ≠ t f i := by
    intro heq
    rw [← heq] at hzero
    exact hentered hzero
  have hadj := (h.adj_iff hf' (mem_ids.mp hv)).mpr ⟨hfv, i, hi, rfl⟩
  have hle := (hst.entered f hf hfu).mp hentered
  have hsucc := dist_le_succ (u := u) hadj
  exact ⟨hfu, hv, hadj, by omega, by omega⟩

/-- What a sweep from level `r` does: it enters the nodes `F`, those of the next level,
each with the mask of a node it is linked to. -/
structure Swept (nic : NicLimits) (t : Topology) (masterId lastNode u r : ℕ) (st : Search)
    (F : Finset ℕ) (st' : Search) : Prop where
  mem_iff : ∀ v, v ∈ F ↔ v ∈ ids masterId lastNode ∧ v ≠ u ∧
    (graph nic t masterId lastNode).dist u v = r + 1
  new : ∀ v ∈ F, st'.neighbour1 v = v ∧
    ∃ f ∈ ids masterId lastNode, f ≠ u ∧ (graph nic t masterId lastNode).Adj f v ∧
      (graph nic t masterId lastNode).dist u f = r ∧ st'.table v = st.table f
  old : ∀ v, v ∉ F → st'.table v = st.table v ∧ st'.neighbour1 v = st.neighbour1 v
  neighbour0 : st'.neighbour0 = st'.neighbour1
  counter : st'.neighboursCounter = (st.neighboursCounter + F.card) % 256

theorem Level.swept (h : Symmetric nic t masterId lastNode) (hu : u ∈ ids masterId lastNode)
    (hr : 1 ≤ r) (hst : Level nic t masterId lastNode u r st) :
    ∃ F, Swept nic t masterId lastNode u r st F (sweep nic t masterId lastNode u st) := by
  have hbyte : st.neighboursCounter < 256 := by
    rw [hst.counter]
    exact Nat.mod_lt _ (by decide)
  obtain ⟨F, hscan⟩ := Scan.nodes nic (scan_init (t := t) (u := u) hbyte) hst.listed (by simp)
    (List.range' masterId (lastNode - masterId))
  have hrange : ∀ f, f ∈ List.range' masterId (lastNode - masterId) ↔
      f ∈ ids masterId lastNode := by
    intro f
    rw [List.mem_range'_1, mem_ids]
    omega
  simp only [false_or, hrange] at hscan
  refine ⟨F, fun v ↦ ?_, fun v hv ↦ ?_, hscan.old, rfl, hscan.counter⟩
  · rw [hscan.found v]
    constructor
    · rintro ⟨hnull, hne, hzero, f, i, ⟨hf, hlisted, hi⟩, rfl⟩
      obtain ⟨-, hv, -, -, hdist⟩ := hst.found h hu hr hf hlisted hi hnull hne hzero
      exact ⟨hv, hne, hdist⟩
    · rintro ⟨hv, hne, hdist⟩
      obtain ⟨w, hadj, hw⟩ := exists_adj_dist_eq hdist
      have hwids := (Symmetric.range_of_adj hadj).1
      have hwu : w ≠ u := by
        rintro rfl
        rw [SimpleGraph.dist_self] at hw
        omega
      obtain ⟨-, i, hi, hwv⟩ := (h.adj_iff hwids (mem_ids.mp hv)).mp hadj
      have hlist := hst.frontier w (mem_ids.mpr hwids) hwu hw
      refine ⟨ne_null h hv, hne, ?_, w, i, ⟨mem_ids.mpr hwids, ?_, hi⟩, hwv⟩
      · by_contra hentered
        have hle := (hst.entered v hv hne).mp hentered
        omega
      · rw [hlist]
        exact ne_null h (mem_ids.mpr hwids)
  · obtain ⟨hnull, hne, hzero, -⟩ := (hscan.found v).mp hv
    obtain ⟨hone, f, i, ⟨hf, hlisted, hi⟩, rfl, htable⟩ := hscan.new v hv
    obtain ⟨hfu, -, hadj, hdist, -⟩ := hst.found h hu hr hf hlisted hi hnull hne hzero
    exact ⟨hone, f, hf, hfu, hadj, hdist, htable⟩

theorem Level.succ (h : Symmetric nic t masterId lastNode) (hu : u ∈ ids masterId lastNode)
    (hr : 1 ≤ r) (hst : Level nic t masterId lastNode u r st) :
    Level nic t masterId lastNode u (r + 1) (sweep nic t masterId lastNode u st) := by
  obtain ⟨F, hF⟩ := hst.swept h hu hr
  generalize sweep nic t masterId lastNode u st = st' at hF ⊢
  have hentered : ∀ v ∈ F, st'.table v ≠ axiomNullRtInterface := by
    intro v hv
    obtain ⟨-, f, hf, hfu, -, hdist, htable⟩ := hF.new v hv
    rw [htable]
    exact (hst.entered f hf hfu).mpr hdist.le
  -- what is not entered by the sweep and not beyond it was entered before
  have hle_of : ∀ v ∈ ids masterId lastNode, v ≠ u → v ∉ F →
      (graph nic t masterId lastNode).dist u v ≤ r + 1 →
        (graph nic t masterId lastNode).dist u v ≤ r := by
    intro v hv hne hvF hle
    rcases Nat.le_succ_iff.mp hle with hle | heq
    · exact hle
    · exact absurd ((hF.mem_iff v).mpr ⟨hv, hne, heq⟩) hvF
  have hlisted1 : ∀ v, st'.neighbour1 v ≠ axiomNullNode →
      st'.neighbour1 v = v ∧ st'.table v ≠ axiomNullRtInterface := by
    intro v hne
    by_cases hv : v ∈ F
    · exact ⟨(hF.new v hv).1, hentered v hv⟩
    · rw [(hF.old v hv).2] at hne ⊢
      rw [(hF.old v hv).1]
      exact hst.listed1 v hne
  refine ⟨?_, ?_, hF.neighbour0 ▸ hlisted1, hlisted1, ?_, ?_⟩
  · intro v hv hne
    by_cases hvF : v ∈ F
    · have hdist := ((hF.mem_iff v).mp hvF).2.2
      exact ⟨fun _ ↦ hdist.le, fun _ ↦ hentered v hvF⟩
    · rw [(hF.old v hvF).1, hst.entered v hv hne]
      exact ⟨fun hle ↦ by omega, hle_of v hv hne hvF⟩
  · intro v hv hne hle
    by_cases hvF : v ∈ F
    · -- the mask of the node it was found from leads on to it
      obtain ⟨-, f, hf, hfu, hadj, hdist, htable⟩ := hF.new v hvF
      obtain ⟨w, huw, hwf, hmask⟩ := hst.route f hf hfu hdist.le
      have hv' := ((hF.mem_iff v).mp hvF).2.2
      refine ⟨w, huw, dist_step huw hwf hadj (by omega), ?_⟩
      rw [htable]
      exact hmask
    · rw [(hF.old v hvF).1]
      exact hst.route v hv hne (hle_of v hv hne hvF hle)
  · intro v hv hne hdist
    rw [hF.neighbour0]
    exact (hF.new v ((hF.mem_iff v).mpr ⟨hv, hne, hdist⟩)).1
  · have hcard := card_within_succ hF.mem_iff
    have hmono := Finset.card_le_card
      (within_mono (G := graph nic t masterId lastNode) (s := ids masterId lastNode) (u := u) hr)
    rw [hF.counter, hst.counter, counted, counted, hcard]
    omega

/-- The search ends at the first level at which the counter has reached the number of
the other nodes. -/
theorem Level.of_sweeps (h : Symmetric nic t masterId lastNode) (hu : u ∈ ids masterId lastNode)
    (hr : 1 ≤ r) (hst : Level nic t masterId lastNode u r st) {fuel : ℕ} {st' : Search}
    (hend : sweeps nic t masterId lastNode u fuel st = some st') :
    ∃ r', r < r' ∧ Level nic t masterId lastNode u r' st' ∧
      lastNode - masterId - 1 ≤ counted nic t masterId lastNode u r' ∧
      ∀ k, r < k → k < r' → counted nic t masterId lastNode u k < lastNode - masterId - 1 := by
  induction fuel generalizing r st with
  | zero => cases hend
  | succ fuel ih =>
      have hnext := hst.succ h hu hr
      simp only [sweeps] at hend
      split at hend
      · rename_i hlt
        obtain ⟨r', hr', hst', hcount, hbelow⟩ := ih (by omega) hnext hend
        refine ⟨r', by omega, hst', hcount, fun k hk hk' ↦ ?_⟩
        rcases Nat.lt_or_eq_of_le (Nat.succ_le_of_lt hk) with hk | rfl
        · exact hbelow k hk hk'
        · rw [← hnext.counter]
          exact hlt
      · rename_i hge
        obtain rfl := Option.some.inj hend
        refine ⟨r + 1, by omega, hnext, ?_, fun k hk hk' ↦ by omega⟩
        rw [← hnext.counter]
        exact not_lt.mp hge

/-- It does end when the counter reaches that number at some level. -/
theorem Level.sweeps_end (h : Symmetric nic t masterId lastNode) (hu : u ∈ ids masterId lastNode)
    (hr : 1 ≤ r) (hst : Level nic t masterId lastNode u r st) {r' : ℕ} (hr' : r < r')
    (hcount : lastNode - masterId - 1 ≤ counted nic t masterId lastNode u r') :
    ∃ fuel st', sweeps nic t masterId lastNode u fuel st = some st' := by
  induction hd : r' - r generalizing r st with
  | zero => omega
  | succ d ih =>
      have hnext := hst.succ h hu hr
      by_cases hlt : (sweep nic t masterId lastNode u st).neighboursCounter <
          lastNode - masterId - 1
      · have hne : r + 1 ≠ r' := by
          rintro rfl
          rw [hnext.counter] at hlt
          omega
        obtain ⟨fuel, st', hend⟩ := ih (by omega) hnext (by omega) (by omega)
        exact ⟨fuel + 1, st', by simp only [sweeps, hlt, if_true, hend]⟩
      · exact ⟨1, sweep nic t masterId lastNode u st, by simp only [sweeps, hlt, if_false]⟩

end Level

/-! ## All nodes -/

/-- When every search comes to its end, so does the computation, and its result does
not depend on how many more sweeps it was allowed. -/
theorem exists_tables (h : Symmetric nic t masterId lastNode) (tables : ℕ → RoutingTable)
    (hend : ∀ u ∈ ids masterId lastNode, ∃ r ≥ 2,
      lastNode - masterId - 1 ≤ counted nic t masterId lastNode u r) :
    ∃ fuel₀ tables', ∀ fuel ≥ fuel₀,
      axiomComputeRoutingTables nic fuel t tables masterId lastNode = some tables' := by
  classical
  have hall : ∀ u, ∃ fuel st, u ∈ ids masterId lastNode →
      sweeps nic t masterId lastNode u fuel (axiomComputeNeighboursRoute nic t u) = some st := by
    intro u
    by_cases hu : u ∈ ids masterId lastNode
    · obtain ⟨r, hr, hcount⟩ := hend u hu
      obtain ⟨fuel, st, hst⟩ := (level_one h hu).sweeps_end h hu le_rfl hr hcount
      exact ⟨fuel, st, fun _ ↦ hst⟩
    · exact ⟨0, axiomInitRoutingNeighbour, fun hu' ↦ absurd hu' hu⟩
  choose fuel st hst using hall
  refine ⟨(ids masterId lastNode).sup fuel,
    fun u ↦ if u ∈ ids masterId lastNode then (st u).table else tables u, fun k hk ↦ ?_⟩
  rw [axiomComputeRoutingTables_eq_some]
  refine ⟨fun u hmin hmax ↦ ?_, fun u hu ↦ ?_⟩
  · have hu : u ∈ ids masterId lastNode := mem_ids.mpr ⟨hmin, hmax⟩
    have hfuel : fuel u ≤ (ids masterId lastNode).sup fuel := Finset.le_sup hu
    exact ⟨st u, sweeps_mono (hfuel.trans hk) (hst u hu), if_pos hu⟩
  · exact if_neg fun hmem ↦ hu (mem_ids.mp hmem)

/-- What the tables of a computation that returned hold for each node. -/
theorem level_of_tables (h : Symmetric nic t masterId lastNode) {fuel : ℕ}
    {tables tables' : ℕ → RoutingTable}
    (hret : axiomComputeRoutingTables nic fuel t tables masterId lastNode = some tables')
    (hu : u ∈ ids masterId lastNode) :
    ∃ r st, 2 ≤ r ∧ Level nic t masterId lastNode u r st ∧ tables' u = st.table ∧
      lastNode - masterId - 1 ≤ counted nic t masterId lastNode u r ∧
      ∀ k, 2 ≤ k → k < r → counted nic t masterId lastNode u k < lastNode - masterId - 1 := by
  obtain ⟨hin, -⟩ := axiomComputeRoutingTables_eq_some.mp hret
  obtain ⟨st, hst, htable⟩ := hin u (mem_ids.mp hu).1 (mem_ids.mp hu).2
  obtain ⟨r, hr, hlevel, hcount, hbelow⟩ := (level_one h hu).of_sweeps h hu le_rfl hst
  exact ⟨r, st, hr, hlevel, htable, hcount, hbelow⟩

/-- Forwarding from one node to the next by the matrix. -/
def out (t : Topology) (x i : ℕ) : Option ℕ := if t x i = axiomNullNode then none else some (t x i)

/-- Tables that always hold the interfaces to a neighbour one hop closer lead to their
targets in the fewest hops. -/
theorem arrivesIn_dist (h : Symmetric nic t masterId lastNode) {tables : ℕ → RoutingTable}
    (hv : v ∈ ids masterId lastNode)
    (hroute : ∀ u ∈ ids masterId lastNode, u ≠ v → ∃ w,
      (graph nic t masterId lastNode).Adj u w ∧ (graph nic t masterId lastNode).dist w v + 1 =
        (graph nic t masterId lastNode).dist u v ∧ LinkMask nic t u w (tables u v))
    (hu : u ∈ ids masterId lastNode) :
    Forwarding.ArrivesIn (out t) (fun x ↦ tables x v) v
      ((graph nic t masterId lastNode).dist u v) u := by
  induction hn : (graph nic t masterId lastNode).dist u v generalizing u with
  | zero =>
      have hreach := h.connected u v (mem_ids.mp hu).1 (mem_ids.mp hu).2 (mem_ids.mp hv).1
        (mem_ids.mp hv).2
      exact hreach.dist_eq_zero_iff.mp hn
  | succ n ih =>
      have huv : u ≠ v := by
        rintro rfl
        simp at hn
      obtain ⟨w, hadj, hdist, hmask⟩ := hroute u hu huv
      have hw := mem_ids.mpr (Symmetric.range_of_adj hadj).2
      obtain ⟨-, i, hi, hiw⟩ := (h.adj_iff (mem_ids.mp hu) (mem_ids.mp hw)).mp hadj
      refine ⟨huv, ⟨i, (hmask i).mpr ⟨hi, hiw⟩⟩, fun k hk ↦ ?_⟩
      obtain ⟨-, hkw⟩ := (hmask k).mp hk
      refine ⟨w, ?_, ih hw (by omega)⟩
      rw [out, hkw, if_neg (ne_null h hw)]

theorem card_within_one_le (h : Symmetric nic t masterId lastNode)
    (hu : u ∈ ids masterId lastNode) :
    (within (graph nic t masterId lastNode) (ids masterId lastNode) u 1).card ≤
      (links nic t u).card := by
  refine (Finset.card_le_card fun v hv ↦ ?_).trans (Finset.card_image_le (f := t u))
  obtain ⟨hv, hne, hle⟩ := mem_within.mp hv
  obtain ⟨i, hi, rfl⟩ := (dist_eq_one_iff h hu hv hne).mp hle
  exact Finset.mem_image_of_mem _
    (Finset.mem_filter.mpr ⟨Finset.mem_range.mpr hi, ne_null h hv⟩)

/-- The counter keeps up with the nodes that have been entered where it cannot wrap. -/
theorem card_le_counted (h : Symmetric nic t masterId lastNode) (hu : u ∈ ids masterId lastNode)
    (hroom : lastNode + nic.interfacesNum ≤ masterId + 256) (r : ℕ) :
    (within (graph nic t masterId lastNode) (ids masterId lastNode) u r).card ≤
      counted nic t masterId lastNode u r := by
  have hone := card_within_one_le h hu
  have hlinks : (links nic t u).card ≤ nic.interfacesNum := by
    simpa [links] using
      Finset.card_filter_le (Finset.range nic.interfacesNum) fun i ↦ t u i ≠ axiomNullNode
  have hlt := card_within_lt (G := graph nic t masterId lastNode) (r := r) hu
  rw [card_ids] at hlt
  rw [counted, Nat.mod_eq_of_lt (by omega)]
  omega

/-- Without parallel links and links to itself, a node has as many links as neighbours. -/
theorem card_links (h : Symmetric nic t masterId lastNode) (hu : u ∈ ids masterId lastNode)
    (hself : ∀ i < nic.interfacesNum, t u i ≠ u)
    (hsimple : ∀ i < nic.interfacesNum, ∀ j < nic.interfacesNum, t u i ≠ axiomNullNode →
      t u i = t u j → i = j) :
    (links nic t u).card =
      (within (graph nic t masterId lastNode) (ids masterId lastNode) u 1).card := by
  have himage : (links nic t u).image (t u) =
      within (graph nic t masterId lastNode) (ids masterId lastNode) u 1 := by
    ext v
    rw [Finset.mem_image, mem_within]
    constructor
    · rintro ⟨i, hi, rfl⟩
      obtain ⟨hi, hnull⟩ := Finset.mem_filter.mp hi
      have hi := Finset.mem_range.mp hi
      have hv : t u i ∈ ids masterId lastNode :=
        mem_ids.mpr (h.closed u i (mem_ids.mp hu).1 (mem_ids.mp hu).2 hi hnull)
      exact ⟨hv, hself i hi, (dist_eq_one_iff h hu hv (hself i hi)).mpr ⟨i, hi, rfl⟩⟩
    · rintro ⟨hv, hne, hle⟩
      obtain ⟨i, hi, rfl⟩ := (dist_eq_one_iff h hu hv hne).mp hle
      exact ⟨i, Finset.mem_filter.mpr ⟨Finset.mem_range.mpr hi, ne_null h hv⟩, rfl⟩
  rw [← himage, Finset.card_image_of_injOn]
  intro i hi j hj hij
  obtain ⟨hi, hnull⟩ := Finset.mem_filter.mp hi
  obtain ⟨hj, -⟩ := Finset.mem_filter.mp hj
  exact hsimple i (Finset.mem_range.mp hi) j (Finset.mem_range.mp hj) hnull hij

/-- Then the counter counts the nodes that have been entered. -/
theorem counted_eq_card (h : Symmetric nic t masterId lastNode) (hu : u ∈ ids masterId lastNode)
    (hself : ∀ i < nic.interfacesNum, t u i ≠ u)
    (hsimple : ∀ i < nic.interfacesNum, ∀ j < nic.interfacesNum, t u i ≠ axiomNullNode →
      t u i = t u j → i = j) (hr : 1 ≤ r) :
    counted nic t masterId lastNode u r =
      (within (graph nic t masterId lastNode) (ids masterId lastNode) u r).card := by
  have hmono := Finset.card_le_card
    (within_mono (G := graph nic t masterId lastNode) (s := ids masterId lastNode) (u := u) hr)
  have hlt := card_within_lt (G := graph nic t masterId lastNode) (r := r) hu
  have hlast := h.lastNode_le
  rw [card_ids] at hlt
  unfold axiomNullNode at hlast
  rw [counted, card_links h hu hself hsimple]
  omega

theorem exists_radius (nic : NicLimits) (t : Topology) (masterId lastNode u : ℕ) :
    ∃ r ≥ 2, ∀ v ∈ ids masterId lastNode, (graph nic t masterId lastNode).dist u v ≤ r := by
  refine ⟨max 2 ((ids masterId lastNode).sup fun v ↦ (graph nic t masterId lastNode).dist u v),
    le_max_left _ _, fun v hv ↦ ?_⟩
  exact (Finset.le_sup (f := fun v ↦ (graph nic t masterId lastNode).dist u v) hv).trans
    (le_max_right _ _)

/-- If the counter keeps up with the nodes that have been entered, it gets to count all. -/
theorem exists_counted (hu : u ∈ ids masterId lastNode)
    (hcount : ∀ r ≥ 1, (within (graph nic t masterId lastNode) (ids masterId lastNode) u r).card ≤
      counted nic t masterId lastNode u r) :
    ∃ r ≥ 2, lastNode - masterId - 1 ≤ counted nic t masterId lastNode u r := by
  obtain ⟨r, hr, hall⟩ := exists_radius nic t masterId lastNode u
  have hcard := card_within_add_one hu fun v hv _ ↦ hall v hv
  have hle := hcount r (by omega)
  rw [card_ids] at hcard
  exact ⟨r, hr, by omega⟩

/-- Without parallel links, `axiom_compute_routing_tables` terminates and forwarding by
its tables takes every message along a shortest path, by whatever interfaces. -/
theorem tables_route_shortest (h : Symmetric nic t masterId lastNode)
    (hself : ∀ a, masterId ≤ a → a < lastNode → ∀ i < nic.interfacesNum, t a i ≠ a)
    (hsimple : ∀ a, masterId ≤ a → a < lastNode → ∀ i < nic.interfacesNum,
      ∀ j < nic.interfacesNum, t a i ≠ axiomNullNode → t a i = t a j → i = j)
    (tables : ℕ → RoutingTable) :
    ∃ fuel₀ tables', (∀ fuel ≥ fuel₀,
        axiomComputeRoutingTables nic fuel t tables masterId lastNode = some tables') ∧
      ∀ u v, masterId ≤ u → u < lastNode → masterId ≤ v → v < lastNode → u ≠ v →
        tables' u v ≠ axiomNullRtInterface ∧
          Forwarding.ArrivesIn (out t) (fun x ↦ tables' x v) v
            ((graph nic t masterId lastNode).dist u v) u := by
  have hcounted : ∀ u ∈ ids masterId lastNode, ∀ r ≥ 1, counted nic t masterId lastNode u r =
      (within (graph nic t masterId lastNode) (ids masterId lastNode) u r).card := by
    intro u hu r hr
    obtain ⟨hmin, hmax⟩ := mem_ids.mp hu
    exact counted_eq_card h hu (hself u hmin hmax) (hsimple u hmin hmax) hr
  have hend : ∀ u ∈ ids masterId lastNode, ∃ r ≥ 2,
      lastNode - masterId - 1 ≤ counted nic t masterId lastNode u r := by
    exact fun u hu ↦ exists_counted hu fun r hr ↦ (hcounted u hu r hr).ge
  obtain ⟨fuel₀, tables', htables⟩ := exists_tables h tables hend
  have hroute : ∀ u ∈ ids masterId lastNode, ∀ v ∈ ids masterId lastNode, u ≠ v → ∃ w,
      (graph nic t masterId lastNode).Adj u w ∧ (graph nic t masterId lastNode).dist w v + 1 =
        (graph nic t masterId lastNode).dist u v ∧ LinkMask nic t u w (tables' u v) := by
    intro u hu v hv huv
    obtain ⟨r, st, hr, hlevel, htable, hcount, -⟩ :=
      level_of_tables h (htables fuel₀ le_rfl) hu
    rw [hcounted u hu r (by omega)] at hcount
    have hfull : (ids masterId lastNode).card ≤
        (within (graph nic t masterId lastNode) (ids masterId lastNode) u r).card + 1 := by
      rw [card_ids]
      omega
    have hle := dist_le_of_card hu hfull hv huv.symm
    obtain ⟨w, hadj, hdist, hmask⟩ := hlevel.route v hv huv.symm hle
    exact ⟨w, hadj, hdist, htable ▸ hmask⟩
  refine ⟨fuel₀, tables', htables, fun u v hmin hmax hmin' hmax' huv ↦ ?_⟩
  have hu : u ∈ ids masterId lastNode := mem_ids.mpr ⟨hmin, hmax⟩
  have hv : v ∈ ids masterId lastNode := mem_ids.mpr ⟨hmin', hmax'⟩
  refine ⟨?_, arrivesIn_dist h hv (fun x hx hxv ↦ hroute x hx v hv hxv) hu⟩
  obtain ⟨w, hadj, -, hmask⟩ := hroute u hu v hv huv
  have hw := mem_ids.mpr (Symmetric.range_of_adj hadj).2
  exact linkMask_ne_zero hmask ((h.adj_iff (mem_ids.mp hu) (mem_ids.mp hw)).mp hadj).2

/-! ## Matrices given by their rows -/

/-- A matrix given by its first rows; the other cells are null. -/
def ofRows (rows : List (List ℕ)) : Topology :=
  fun a i ↦ ((rows.getD a []).getD i axiomNullNode)

/-- A symmetric matrix is connected when every node but the first has a link to a
lower one. -/
theorem symmetric_of_lower (hlast : lastNode ≤ axiomNullNode)
    (hclosed : ∀ a i, masterId ≤ a → a < lastNode → i < nic.interfacesNum →
      t a i ≠ axiomNullNode →
      (masterId ≤ t a i ∧ t a i < lastNode) ∧ ∃ j < nic.interfacesNum, t (t a i) j = a)
    (hlower : ∀ a, masterId < a → a < lastNode →
      ∃ i < nic.interfacesNum, masterId ≤ t a i ∧ t a i < a) :
    Symmetric nic t masterId lastNode where
  lastNode_le := hlast
  closed a i ha ha' hi hnull := (hclosed a i ha ha' hi hnull).1
  symm a i ha ha' hi hnull := (hclosed a i ha ha' hi hnull).2
  connected := by
    have hfirst : ∀ a, masterId ≤ a → a < lastNode →
        (graph nic t masterId lastNode).Reachable masterId a := by
      intro a
      induction a using Nat.strong_induction_on with
      | _ a ih =>
          intro ha ha'
          rcases Nat.eq_or_lt_of_le ha with rfl | hlt
          · exact SimpleGraph.Reachable.refl _
          · obtain ⟨i, hi, hmin, hless⟩ := hlower a hlt ha'
            refine (ih _ hless hmin (by omega)).trans (SimpleGraph.Adj.reachable ?_)
            rw [graph, SimpleGraph.fromRel_adj]
            exact ⟨hless.ne, .inr ⟨⟨ha, ha'⟩, ⟨hmin, by omega⟩, i, hi, rfl⟩⟩
    intro a b ha ha' hb hb'
    exact (hfirst a ha ha').symm.trans (hfirst b hb hb')

def row3 : Topology := ofRows [[255, 1], [0, 2], [1]]

theorem symmetric_row3 : Symmetric fourIfNic row3 0 3 := by
  refine symmetric_of_lower (by decide) ?_ ?_
  · intro a i _ ha hi
    have hi : i < 4 := hi
    interval_cases a <;> interval_cases i <;> decide
  · intro a hpos ha
    interval_cases a <;> decide

theorem row3_ne_self (a : ℕ) (_ : 0 ≤ a) (ha : a < 3) (i : ℕ) (hi : i < fourIfNic.interfacesNum) :
    row3 a i ≠ a := by
  have hi : i < 4 := hi
  interval_cases a <;> interval_cases i <;> decide

theorem row3_simple (a : ℕ) (_ : 0 ≤ a) (ha : a < 3) (i : ℕ) (hi : i < fourIfNic.interfacesNum)
    (j : ℕ) (hj : j < fourIfNic.interfacesNum) :
    row3 a i ≠ axiomNullNode → row3 a i = row3 a j → i = j := by
  have hi : i < 4 := hi
  have hj : j < 4 := hj
  interval_cases a <;> interval_cases i <;> interval_cases j <;> decide

theorem tables_route_row3 :
    ∃ fuel₀ tables', (∀ fuel ≥ fuel₀,
        axiomComputeRoutingTables fourIfNic fuel row3 (fun _ _ ↦ 0) 0 3 = some tables') ∧
      tables' 0 2 ≠ axiomNullRtInterface := by
  obtain ⟨fuel₀, tables', htables, hroute⟩ :=
    tables_route_shortest symmetric_row3 row3_ne_self row3_simple (fun _ _ ↦ 0)
  exact ⟨fuel₀, tables', htables, (hroute 0 2 (by decide) (by decide) (by decide) (by decide)
    (by decide)).1⟩

end AxiomApps.Routing
