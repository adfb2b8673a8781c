import AxiomApps.Discovery.Protocol

/-!
# What a matrix knows

Boards are numbered from `masterId` in the order in which they were found. A matrix
is sound when every cell it holds is a link of the wiring under that numbering, and
mutual when every cell has a cell pointing back. Recording both ends of a link keeps
both, and so does merging the report made from another such matrix.
-/

namespace AxiomApps.Discovery

variable {nic : NicLimits} {V : Type*} [DecidableEq V] (net : Network nic V) (masterId : ℕ)

/-- The id of a board, from its place in the order of discovery. -/
def ident (order : List V) (v : V) : ℕ := masterId + order.idxOf v

def Sound (order : List V) (t : Topology) : Prop :=
  ∀ a i, i < nic.interfacesNum → t a i ≠ axiomNullNode →
    ∃ x ∈ order, ∃ y ∈ order, ∃ j, net.wire x i = some (y, j) ∧
      a = ident masterId order x ∧ t a i = ident masterId order y

def Mutual (nic : NicLimits) (t : Topology) : Prop :=
  ∀ a i, i < nic.interfacesNum → t a i ≠ axiomNullNode →
    ∃ w < nic.interfacesNum, t (t a i) w = a

/-- The matrix holds the cell of interface `i` of `x`. -/
def Knows (order : List V) (t : Topology) (x : V) (i : ℕ) : Prop :=
  t (ident masterId order x) i ≠ axiomNullNode

/-- With one end of a link the matrix holds the other one. -/
def Paired (order : List V) (t : Topology) : Prop :=
  ∀ x ∈ order, ∀ i y j, net.wire x i = some (y, j) →
    Knows masterId order t x i → Knows masterId order t y j

/-- What the report of a sound and mutual matrix says: two cells it holds, for links
of one pair of boards though not always for one wire. -/
def Truthful (order : List V) (t : Topology) (m : Msg) : Prop :=
  m.command = .topology ∧ ∃ x ∈ order, ∃ y ∈ order, ∃ j k,
    net.wire x m.srcIf = some (y, j) ∧ net.wire y m.dstIf = some (x, k) ∧
      m.srcNode = ident masterId order x ∧ m.dstNode = ident masterId order y ∧
        Knows masterId order t x m.srcIf ∧ Knows masterId order t y m.dstIf

/-! ## The numbering -/

section Ident

variable {masterId} {order : List V} {x y v : V}

theorem ident_inj (hx : x ∈ order) (h : ident masterId order x = ident masterId order y) :
    x = y := by
  have hidx : order.idxOf x = order.idxOf y := by
    unfold ident at h
    omega
  exact List.idxOf_inj hx |>.mp hidx

theorem idxOf_append_of_mem (hx : x ∈ order) : (order ++ [v]).idxOf x = order.idxOf x :=
  List.idxOf_append_of_mem hx

theorem idxOf_append_new (hv : v ∉ order) : (order ++ [v]).idxOf v = order.length := by
  rw [List.idxOf_append_of_notMem hv]
  simp

theorem ident_append_of_mem (hx : x ∈ order) :
    ident masterId (order ++ [v]) x = ident masterId order x := by
  simp only [ident, idxOf_append_of_mem hx]

theorem ident_append_new (hv : v ∉ order) :
    ident masterId (order ++ [v]) v = masterId + order.length := by
  simp only [ident, idxOf_append_new hv]

theorem ident_lt (hroom : masterId + order.length ≤ 255) (hx : x ∈ order) :
    ident masterId order x < 255 := by
  have hlt := List.idxOf_lt_length_of_mem hx
  unfold ident
  omega

theorem ident_ne_null (hroom : masterId + order.length ≤ 255) (hx : x ∈ order) :
    ident masterId order x ≠ axiomNullNode :=
  (ident_lt hroom hx).ne

end Ident

/-! ## Recording a link -/

section Link

variable {net masterId} {order : List V} {t : Topology} {x y : V} {i w j k : ℕ}

/-- A cell that is held is held with the same value by every sound matrix. -/
theorem Sound.cell_eq (ht : Sound net masterId order t) (hx : x ∈ order)
    (hwire : net.wire x i = some (y, j)) (h : Knows masterId order t x i) :
    t (ident masterId order x) i = ident masterId order y := by
  obtain ⟨x', hx', y', _, j', hwire', ha, hval⟩ := ht _ i (net.lt_interfacesNum hwire) h
  obtain rfl := ident_inj hx ha
  have hpair : (y, j) = (y', j') := Option.some.inj (hwire.symm.trans hwire')
  rw [hval, (Prod.mk.inj hpair).1]

theorem Sound.mem_of_knows (ht : Sound net masterId order t) (hx : x ∈ order)
    (hwire : net.wire x i = some (y, j)) (h : Knows masterId order t x i) : y ∈ order := by
  obtain ⟨x', hx', y', hy', j', hwire', ha, _⟩ := ht _ i (net.lt_interfacesNum hwire) h
  obtain rfl := ident_inj hx ha
  have hpair : (y, j) = (y', j') := Option.some.inj (hwire.symm.trans hwire')
  rwa [(Prod.mk.inj hpair).1]

theorem sound_init : Sound net masterId order axiomTopologyInit := by
  intro a i _ h
  exact absurd rfl h

theorem mutual_init : Mutual nic axiomTopologyInit := by
  intro a i _ h
  exact absurd rfl h

theorem paired_init : Paired net masterId order axiomTopologyInit := by
  intro x _ i y j _ h
  exact absurd rfl h

/-- The cells after recording the link between interface `i` of `x` and interface `w`
of `y`: the old ones keep their values. -/
theorem link_keeps (ht : Sound net masterId order t) (hx : x ∈ order) (hy : y ∈ order)
    (hxy : net.wire x i = some (y, j)) (hyx : net.wire y w = some (x, k))
    {a b : ℕ} (hb : b < nic.interfacesNum) (h : t a b ≠ axiomNullNode) :
    t.link nic.interfacesNum (ident masterId order x) i (ident masterId order y) w a b =
      t a b := by
  rw [Topology.link_apply (net.lt_interfacesNum hxy) (net.lt_interfacesNum hyx) hb]
  split_ifs with h₁ h₂
  · obtain ⟨rfl, rfl⟩ := h₁
    exact (ht.cell_eq hy hyx h).symm
  · obtain ⟨rfl, rfl⟩ := h₂
    exact (ht.cell_eq hx hxy h).symm
  · rfl

theorem link_knows_left (hroom : masterId + order.length ≤ 255) (hx : x ∈ order)
    (hy : y ∈ order) (hxy : net.wire x i = some (y, j)) (hyx : net.wire y w = some (x, k)) :
    Knows masterId order
      (t.link nic.interfacesNum (ident masterId order x) i (ident masterId order y) w) x i := by
  have hi := net.lt_interfacesNum hxy
  rw [Knows, Topology.link_apply hi (net.lt_interfacesNum hyx) hi]
  split_ifs with h₁ h₂
  · exact ident_ne_null hroom hx
  · exact ident_ne_null hroom hy
  · exact absurd ⟨rfl, rfl⟩ h₂

theorem link_knows_right (hroom : masterId + order.length ≤ 255) (hx : x ∈ order)
    (hxy : net.wire x i = some (y, j)) (hyx : net.wire y w = some (x, k)) :
    Knows masterId order
      (t.link nic.interfacesNum (ident masterId order x) i (ident masterId order y) w) y w := by
  have hw := net.lt_interfacesNum hyx
  rw [Knows, Topology.link_apply (net.lt_interfacesNum hxy) hw hw, if_pos ⟨rfl, rfl⟩]
  exact ident_ne_null hroom hx

theorem link_knows_mono (ht : Sound net masterId order t) (hx : x ∈ order) (hy : y ∈ order)
    (hxy : net.wire x i = some (y, j)) (hyx : net.wire y w = some (x, k))
    {z : V} {b : ℕ} (hb : b < nic.interfacesNum) (h : Knows masterId order t z b) :
    Knows masterId order
      (t.link nic.interfacesNum (ident masterId order x) i (ident masterId order y) w) z b := by
  rw [Knows, link_keeps ht hx hy hxy hyx hb h]
  exact h

/-- Nothing but the two ends becomes known. -/
theorem link_knows_cases (hx : x ∈ order) (hy : y ∈ order)
    (hxy : net.wire x i = some (y, j)) (hyx : net.wire y w = some (x, k))
    {z : V} {b : ℕ} (hb : b < nic.interfacesNum)
    (h : Knows masterId order
      (t.link nic.interfacesNum (ident masterId order x) i (ident masterId order y) w) z b) :
    Knows masterId order t z b ∨ (z = x ∧ b = i) ∨ (z = y ∧ b = w) := by
  rw [Knows, Topology.link_apply (net.lt_interfacesNum hxy) (net.lt_interfacesNum hyx) hb] at h
  split_ifs at h with h₁ h₂
  · exact .inr (.inr ⟨(ident_inj hy h₁.1.symm).symm, h₁.2⟩)
  · exact .inr (.inl ⟨(ident_inj hx h₂.1.symm).symm, h₂.2⟩)
  · exact .inl h

theorem Sound.link (ht : Sound net masterId order t) (hx : x ∈ order) (hy : y ∈ order)
    (hxy : net.wire x i = some (y, j)) (hyx : net.wire y w = some (x, k)) :
    Sound net masterId order
      (t.link nic.interfacesNum (ident masterId order x) i (ident masterId order y) w) := by
  intro a b hb h
  rw [Topology.link_apply (net.lt_interfacesNum hxy) (net.lt_interfacesNum hyx) hb] at h ⊢
  split_ifs at h ⊢ with h₁ h₂
  · obtain ⟨rfl, rfl⟩ := h₁
    exact ⟨y, hy, x, hx, k, hyx, rfl, rfl⟩
  · obtain ⟨rfl, rfl⟩ := h₂
    exact ⟨x, hx, y, hy, j, hxy, rfl, rfl⟩
  · exact ht a b hb h

theorem Mutual.link (hm : Mutual nic t) (ht : Sound net masterId order t)
    (hroom : masterId + order.length ≤ 255) (hx : x ∈ order) (hy : y ∈ order)
    (hxy : net.wire x i = some (y, j)) (hyx : net.wire y w = some (x, k)) :
    Mutual nic
      (t.link nic.interfacesNum (ident masterId order x) i (ident masterId order y) w) := by
  intro a b hb h
  have hi := net.lt_interfacesNum hxy
  have hw := net.lt_interfacesNum hyx
  have ht' := ht.link hx hy hxy hyx
  by_cases hold : t a b = axiomNullNode
  · -- a new cell points back through the other new cell
    rw [Topology.link_apply hi hw hb] at h ⊢
    split_ifs at h ⊢ with h₁ h₂
    · obtain ⟨rfl, rfl⟩ := h₁
      exact ⟨i, hi, ht'.cell_eq hx hxy (link_knows_left hroom hx hy hxy hyx)⟩
    · obtain ⟨rfl, rfl⟩ := h₂
      exact ⟨w, hw, ht'.cell_eq hy hyx (link_knows_right hroom hx hxy hyx)⟩
    · exact absurd hold h
  · obtain ⟨w', hw', hback⟩ := hm a b hb hold
    rw [link_keeps ht hx hy hxy hyx hb hold]
    refine ⟨w', hw', ?_⟩
    obtain ⟨x', hx', _, _, _, _, ha, _⟩ := ht a b hb hold
    rw [link_keeps ht hx hy hxy hyx hw' (by rw [hback, ha]; exact ident_ne_null hroom hx'), hback]

/-- Recording the two ends of one wire keeps the pairing. -/
theorem Paired.link (hp : Paired net masterId order t) (ht : Sound net masterId order t)
    (hroom : masterId + order.length ≤ 255) (hx : x ∈ order) (hy : y ∈ order)
    (hxy : net.wire x i = some (y, w)) :
    Paired net masterId order
      (t.link nic.interfacesNum (ident masterId order x) i (ident masterId order y) w) := by
  intro z hz b z' b' hwire h
  have hyx := net.symm hxy
  rcases link_knows_cases hx hy hxy hyx (net.lt_interfacesNum hwire) h with
    h | ⟨rfl, rfl⟩ | ⟨rfl, rfl⟩
  · exact link_knows_mono ht hx hy hxy hyx (net.lt_interfacesNum (net.symm hwire))
      (hp z hz b z' b' hwire h)
  · obtain ⟨rfl, rfl⟩ : y = z' ∧ w = b' := by simpa [hxy] using hwire
    exact link_knows_right hroom hz hxy hyx
  · obtain ⟨rfl, rfl⟩ : x = z' ∧ i = b' := by simpa [hyx] using hwire
    exact link_knows_left hroom hx hz hxy hyx

end Link

/-! ## One more board -/

section Append

variable {net masterId} {order : List V} {t : Topology} {v : V}

theorem Sound.append (ht : Sound net masterId order t) : Sound net masterId (order ++ [v]) t := by
  intro a i hi h
  obtain ⟨x, hx, y, hy, j, hwire, ha, hval⟩ := ht a i hi h
  refine ⟨x, List.mem_append_left _ hx, y, List.mem_append_left _ hy, j, hwire, ?_, ?_⟩
  · rw [ident_append_of_mem hx, ha]
  · rw [ident_append_of_mem hy, hval]

theorem knows_append_iff {x : V} {i : ℕ} (hx : x ∈ order) :
    Knows masterId (order ++ [v]) t x i ↔ Knows masterId order t x i := by
  rw [Knows, Knows, ident_append_of_mem hx]

/-- A sound matrix knows nothing of a board that has no number yet. -/
theorem Sound.not_knows_new (ht : Sound net masterId order t) (hv : v ∉ order) {i : ℕ}
    (hi : i < nic.interfacesNum) : ¬ Knows masterId (order ++ [v]) t v i := by
  intro h
  obtain ⟨x, hx, _, _, _, _, ha, _⟩ := ht _ i hi h
  rw [ident_append_new hv] at ha
  have hlt := List.idxOf_lt_length_of_mem hx
  unfold ident at ha
  omega

theorem Paired.append (hp : Paired net masterId order t) (ht : Sound net masterId order t)
    (hv : v ∉ order) : Paired net masterId (order ++ [v]) t := by
  intro x hx i y j hwire h
  rcases List.mem_append.mp hx with hx | hx
  · rw [knows_append_iff hx] at h
    rw [knows_append_iff (ht.mem_of_knows hx hwire h)]
    exact hp x hx i y j hwire h
  · obtain rfl : x = v := by simpa using hx
    exact absurd h (ht.not_knows_new hv (net.lt_interfacesNum hwire))

end Append

/-! ## The report -/

section Report

variable {net masterId} {order : List V} {t : Topology}

theorem remoteIf_spec {a d : ℕ} (h : ∃ w < nic.interfacesNum, t d w = a) :
    remoteIf nic t a d < nic.interfacesNum ∧ t d (remoteIf nic t a d) = a := by
  obtain ⟨w, hw, hwa⟩ := h
  unfold remoteIf
  cases hfind : (List.range nic.interfacesNum).find? fun w ↦ t d w = a with
  | none =>
      have hnone := List.find?_eq_none.mp hfind w (List.mem_range.mpr hw)
      simp [hwa] at hnone
  | some w' =>
      have hmem := List.mem_of_find?_eq_some hfind
      have hval := List.find?_some hfind
      exact ⟨List.mem_range.mp hmem, by simpa using hval⟩

theorem mem_topologyReport {m : Msg} :
    m ∈ topologyReport nic t ↔
      ∃ a < nic.nodesNum, ∃ i < nic.interfacesNum, t a i ≠ axiomNullNode ∧
        m = ⟨.topology, a, t a i, i, remoteIf nic t a (t a i)⟩ := by
  simp only [topologyReport, List.mem_flatMap, List.mem_filterMap, List.mem_range]
  constructor
  · rintro ⟨a, ha, i, hi, h⟩
    split_ifs at h with hnull
    exact ⟨a, ha, i, hi, hnull, by simpa using h.symm⟩
  · rintro ⟨a, ha, i, hi, hnull, rfl⟩
    exact ⟨a, ha, i, hi, by simp [hnull]⟩

theorem truthful_of_mem_topologyReport (hroom : masterId + order.length ≤ 255)
    (ht : Sound net masterId order t) (hm : Mutual nic t) {m : Msg}
    (h : m ∈ topologyReport nic t) : Truthful net masterId order t m := by
  obtain ⟨a, _, i, hi, hnull, rfl⟩ := mem_topologyReport.mp h
  obtain ⟨hw, hback⟩ := remoteIf_spec (hm a i hi hnull)
  obtain ⟨x, hx, y, hy, j, hwire, ha, hval⟩ := ht a i hi hnull
  have hknow : t (t a i) (remoteIf nic t a (t a i)) ≠ axiomNullNode := by
    rw [hback, ha]
    exact ident_ne_null hroom hx
  obtain ⟨y', hy', x', hx', k, hwire', ha', hval'⟩ := ht _ _ hw hknow
  obtain rfl := ident_inj hy (hval.symm.trans ha')
  obtain rfl := ident_inj hx (ha.symm.trans (hback.symm.trans hval'))
  refine ⟨rfl, x, hx, y, hy, j, k, hwire, hwire', ha, hval, ?_, ?_⟩
  · rw [Knows, ← ha]
    exact hnull
  · rw [Knows, ← hval]
    exact hknow

/-- Every cell a sound matrix holds is in its report. -/
theorem exists_mem_topologyReport (hroom : masterId + order.length ≤ 255) {x : V} {i : ℕ}
    (hx : x ∈ order) (hi : i < nic.interfacesNum) (h : Knows masterId order t x i) :
    ∃ m ∈ topologyReport nic t, m.srcNode = ident masterId order x ∧ m.srcIf = i :=
  ⟨_, mem_topologyReport.mpr ⟨_, (ident_lt hroom hx).trans_le nic.le_nodesNum, i, hi, h, rfl⟩,
    rfl, rfl⟩

end Report

end AxiomApps.Discovery
