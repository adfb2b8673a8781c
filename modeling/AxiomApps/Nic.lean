import Mathlib.Logic.Relation
import Mathlib.Tactic

/-!
# What the programs use of the NIC library

Node ids are 8-bit values and `AXIOM_NULL_NODE` is 255; ids are natural numbers
here and every addition the source makes on one is reduced modulo 256. Interface
masks are bytes. The remaining limits are constants of the NIC headers, which are
not part of the sources: they are collected in `NicLimits` with what the programs
rely on. `AXIOM_INTERFACES_MAX` is the last interface number, so the loops that run
up to it are loops over all interfaces.
-/

namespace AxiomApps

def axiomNullNode : ℕ := 255

/-- The limits set by the NIC headers. Every id but the null one indexes the arrays
of `AXIOM_NODES_NUM` rows, and a mask byte has a bit for every interface. -/
structure NicLimits where
  interfacesNum : ℕ
  interfacesNum_le : interfacesNum ≤ 8
  nodesNum : ℕ
  le_nodesNum : 255 ≤ nodesNum
  nodesNum_le : nodesNum ≤ 256
  /-- `AXIOM_INIT_MASTER_NODE` -/
  initMasterNode : ℕ
  /-- `AXIOMREG_ROUTING_LOOPBACK_IF` -/
  routingLoopbackIf : ℕ

/-- The discovery protocol calls it `AXIOM_IF_LOOPBACK`. -/
def NicLimits.ifLoopback (nic : NicLimits) : ℕ := nic.routingLoopbackIf

inductive AxiomRet
  | ok
  | error
  deriving DecidableEq, Repr

/-- A set of interfaces, one bit for each. -/
abbrev IfMask := BitVec 8

def axiomCodifyRoutingMask (ifId : ℕ) : IfMask := 1#8 <<< ifId

theorem getLsbD_axiomCodifyRoutingMask {i k : ℕ} (hi : i < 8) :
    (axiomCodifyRoutingMask i).getLsbD k = true ↔ k = i := by
  simp only [axiomCodifyRoutingMask, BitVec.getLsbD_shiftLeft, BitVec.getLsbD_one]
  simp only [Bool.and_eq_true, decide_eq_true_eq, Bool.not_eq_true', decide_eq_false_iff_not]
  omega

/-- A routing table: a mask for each destination. -/
abbrev RoutingTable := ℕ → IfMask

/-! ## The topology matrix -/

/-- `topology[node][interface]`, the node found behind an interface. -/
abbrev Topology := ℕ → ℕ → ℕ

def axiomTopologyInit : Topology := fun _ _ ↦ axiomNullNode

namespace Topology

/-- Store into a row-major matrix of rows of `w` cells: a column past the row's end
is a cell of the next row. -/
def set (w : ℕ) (t : Topology) (a i v : ℕ) : Topology :=
  fun a' i' ↦ if a' * w + i' = a * w + i then v else t a' i'

/-- Both ends of a link, as the three places that record one store them. -/
def link (w : ℕ) (t : Topology) (a i b j : ℕ) : Topology :=
  (t.set w a i b).set w b j a

theorem cell_eq_iff {w a a' i i' : ℕ} (hi : i < w) (hi' : i' < w) :
    a' * w + i' = a * w + i ↔ a' = a ∧ i' = i := by
  constructor
  · intro h
    have hdiv := congrArg (· / w) h
    have hmod := congrArg (· % w) h
    have hw : 0 < w := by omega
    simp only [Nat.mul_comm _ w, Nat.mul_add_div hw, Nat.div_eq_of_lt hi, Nat.div_eq_of_lt hi',
      Nat.mul_add_mod, Nat.mod_eq_of_lt hi, Nat.mod_eq_of_lt hi', Nat.add_zero] at hdiv hmod
    exact ⟨hdiv, hmod⟩
  · rintro ⟨rfl, rfl⟩
    rfl

theorem set_apply {w : ℕ} {t : Topology} {a i v a' i' : ℕ} (hi : i < w) (hi' : i' < w) :
    t.set w a i v a' i' = if a' = a ∧ i' = i then v else t a' i' := by
  simp only [set, cell_eq_iff hi hi']

theorem link_apply {w : ℕ} {t : Topology} {a i b j a' i' : ℕ}
    (hi : i < w) (hj : j < w) (hi' : i' < w) :
    t.link w a i b j a' i' =
      if a' = b ∧ i' = j then a else if a' = a ∧ i' = i then b else t a' i' := by
  rw [link, set_apply hj hi', set_apply hi hi']

end Topology

/-! ## Networks of boards -/

/-- Boards and the cables between their interfaces: a connected network whose
wiring pairs interfaces of different boards. `wire u i` is the far end of interface
`i` of `u`; `axiom_get_if_info` reports `AXIOM_IF_CONNECTED` where there is one. -/
structure Network (nic : NicLimits) (V : Type*) where
  wire : V → ℕ → Option (V × ℕ)
  /-- `axiom_get_if_number` -/
  ifNumber : V → ℕ
  ifNumber_le : ∀ u, ifNumber u ≤ nic.interfacesNum
  lt_ifNumber : ∀ {u i p}, wire u i = some p → i < ifNumber u
  symm : ∀ {u i v j}, wire u i = some (v, j) → wire v j = some (u, i)
  ne : ∀ {u i v j}, wire u i = some (v, j) → u ≠ v
  connected : ∀ u v, Relation.ReflTransGen (fun x y ↦ ∃ i j, wire x i = some (y, j)) u v

namespace Network

variable {nic : NicLimits} {V : Type*} (net : Network nic V)

/-- No two cables join the same boards. -/
def Simple : Prop :=
  ∀ ⦃u v i j k l⦄, net.wire u i = some (v, k) → net.wire u j = some (v, l) → i = j

theorem lt_interfacesNum {u : V} {i : ℕ} {p : V × ℕ} (h : net.wire u i = some p) :
    i < nic.interfacesNum :=
  (net.lt_ifNumber h).trans_le (net.ifNumber_le u)

theorem lt_eight {u : V} {i : ℕ} {p : V × ℕ} (h : net.wire u i = some p) : i < 8 :=
  (net.lt_interfacesNum h).trans_le nic.interfacesNum_le

/-- A wire has one interface at either end. -/
theorem wire_eq_iff {v x : V} {j k : ℕ} (hwire : net.wire v j = some (x, k)) (u : V) (i : ℕ) :
    net.wire u i = some (x, k) ↔ u = v ∧ i = j := by
  constructor
  · intro h
    have heq := (net.symm h).symm.trans (net.symm hwire)
    simpa using heq
  · rintro ⟨rfl, rfl⟩
    exact hwire

/-- A set of boards that holds one board and, with a board, all its neighbours,
holds them all. -/
theorem mem_of_closed {P : V → Prop} {u : V} (hu : P u)
    (hclosed : ∀ x i y j, P x → net.wire x i = some (y, j) → P y) (v : V) : P v := by
  induction net.connected u v with
  | refl => exact hu
  | tail _ hxy ih =>
      obtain ⟨i, j, hw⟩ := hxy
      exact hclosed _ _ _ _ ih hw

theorem exists_wire {u v : V} (hne : u ≠ v) : ∃ i p, net.wire v i = some p := by
  by_contra hnone
  push Not at hnone
  refine net.mem_of_closed (P := (· ≠ v)) hne (fun x i y j _ hwire ↦ ?_) v rfl
  rintro rfl
  exact hnone j _ (net.symm hwire)

/-- The same network with its boards renamed. -/
def map {W : Type*} (e : V ≃ W) : Network nic W where
  wire w i := (net.wire (e.symm w) i).map fun p ↦ (e p.1, p.2)
  ifNumber w := net.ifNumber (e.symm w)
  ifNumber_le w := net.ifNumber_le (e.symm w)
  lt_ifNumber {w i p} h := by
    obtain ⟨q, hq, -⟩ := Option.map_eq_some_iff.mp h
    exact net.lt_ifNumber hq
  symm {w i x j} h := by
    obtain ⟨⟨v, k⟩, hq, heq⟩ := Option.map_eq_some_iff.mp h
    obtain ⟨rfl, rfl⟩ := Prod.mk.inj heq
    simp [net.symm hq]
  ne {w i x j} h := by
    obtain ⟨⟨v, k⟩, hq, heq⟩ := Option.map_eq_some_iff.mp h
    obtain ⟨rfl, rfl⟩ := Prod.mk.inj heq
    rintro rfl
    exact net.ne hq (e.symm_apply_apply v)
  connected w x := by
    have hlift : Relation.ReflTransGen
        (fun w x ↦ ∃ i j, (net.wire (e.symm w) i).map (fun p ↦ (e p.1, p.2)) = some (x, j))
        (e (e.symm w)) (e (e.symm x)) := by
      refine (net.connected (e.symm w) (e.symm x)).lift e ?_
      rintro u v ⟨i, j, hwire⟩
      exact ⟨i, j, by simp [hwire]⟩
    simpa only [Equiv.apply_symm_apply] using hlift

end Network

/-! ## Chains of boards -/

def fourIfNic : NicLimits where
  interfacesNum := 4
  interfacesNum_le := by decide
  nodesNum := 255
  le_nodesNum := by decide
  nodesNum_le := by decide
  initMasterNode := 0
  routingLoopbackIf := 7

/-- In a chain, interface 0 of a board leads down to interface 1 of the one before. -/
def chainWire (n : ℕ) (u : Fin (n + 1)) (i : ℕ) : Option (Fin (n + 1) × ℕ) :=
  if i = 0 then
    if 0 < u.val then some (⟨u.val - 1, by omega⟩, 1) else none
  else if i = 1 then
    if h : u.val < n then some (⟨u.val + 1, by omega⟩, 0) else none
  else none

theorem chainWire_eq_some {n : ℕ} {u v : Fin (n + 1)} {i j : ℕ} :
    chainWire n u i = some (v, j) ↔
      (i = 0 ∧ j = 1 ∧ v.val + 1 = u.val) ∨ (i = 1 ∧ j = 0 ∧ u.val + 1 = v.val) := by
  have hv := v.isLt
  rcases i with - | - | i
  · by_cases hu : 0 < u.val
    · simp [chainWire, hu, Fin.ext_iff]
      omega
    · simp [chainWire, hu]
      omega
  · by_cases hu : u.val < n
    · simp [chainWire, hu, Fin.ext_iff]
      omega
    · simp [chainWire, hu]
      omega
  · simp [chainWire]

def chain (n : ℕ) : Network fourIfNic (Fin (n + 1)) where
  wire := chainWire n
  ifNumber _ := 2
  ifNumber_le _ := by decide
  lt_ifNumber {u i p} h := by
    obtain ⟨v, j⟩ := p
    rcases chainWire_eq_some.mp h with ⟨rfl, -⟩ | ⟨rfl, -⟩ <;> decide
  symm {u i v j} h := by
    rw [chainWire_eq_some] at h ⊢
    omega
  ne {u i v j} h := by
    rintro rfl
    rw [chainWire_eq_some] at h
    omega
  connected u v := by
    -- every board is reached from the first one and reaches it
    have hup : ∀ k (hk : k < n + 1), Relation.ReflTransGen
        (fun x y ↦ ∃ i j, chainWire n x i = some (y, j)) ⟨0, by omega⟩ ⟨k, hk⟩ := by
      intro k
      induction k with
      | zero => exact fun _ ↦ .refl
      | succ k ih =>
          intro hk
          refine .tail (ih (by omega)) ⟨1, 0, chainWire_eq_some.mpr (.inr ⟨rfl, rfl, rfl⟩)⟩
    have hdown : ∀ k (hk : k < n + 1), Relation.ReflTransGen
        (fun x y ↦ ∃ i j, chainWire n x i = some (y, j)) ⟨k, hk⟩ ⟨0, by omega⟩ := by
      intro k
      induction k with
      | zero => exact fun _ ↦ .refl
      | succ k ih =>
          intro hk
          refine .head ⟨0, 1, chainWire_eq_some.mpr (.inl ⟨rfl, rfl, rfl⟩)⟩ (ih (by omega))
    exact (hdown u.val u.isLt).trans (hup v.val v.isLt)

/-! ## Rings of boards -/

/-- In a ring, interface 1 of a board leads to interface 0 of the next one. -/
def ringWire (n : ℕ) (u : Fin (n + 2)) : ℕ → Option (Fin (n + 2) × ℕ)
  | 0 => some (u - 1, 1)
  | 1 => some (u + 1, 0)
  | _ => none

theorem ringWire_eq_some {n : ℕ} {u v : Fin (n + 2)} {i j : ℕ} :
    ringWire n u i = some (v, j) ↔
      (i = 0 ∧ j = 1 ∧ u = v + 1) ∨ (i = 1 ∧ j = 0 ∧ v = u + 1) := by
  rcases i with - | - | i
  · simp [ringWire, sub_eq_iff_eq_add, and_comm, eq_comm (a := 1)]
  · simp [ringWire, and_comm, eq_comm]
  · simp [ringWire]

/-- A ring of two boards is a pair joined by two cables. -/
def ring (n : ℕ) : Network fourIfNic (Fin (n + 2)) where
  wire := ringWire n
  ifNumber _ := 2
  ifNumber_le _ := by decide
  lt_ifNumber {u i p} h := by
    obtain ⟨v, j⟩ := p
    rcases ringWire_eq_some.mp h with ⟨rfl, -⟩ | ⟨rfl, -⟩ <;> decide
  symm {u i v j} h := by
    rw [ringWire_eq_some] at h ⊢
    tauto
  ne {u i v j} h := by
    rintro rfl
    rw [ringWire_eq_some] at h
    simp at h
  connected u v := by
    -- a chain is a ring without one of its cables
    have hsucc {x y : Fin (n + 2)} (h : x.val + 1 = y.val) : y = x + 1 :=
      Fin.ext (h.symm.trans (Fin.val_add_one_of_lt' (h.trans_lt y.isLt)).symm)
    refine Relation.ReflTransGen.mono ?_ _ _ ((chain (n + 1)).connected u v)
    rintro x y ⟨i, j, hwire⟩
    refine ⟨i, j, ringWire_eq_some.mpr ?_⟩
    rcases chainWire_eq_some.mp hwire with ⟨rfl, rfl, h⟩ | ⟨rfl, rfl, h⟩
    · exact .inl ⟨rfl, rfl, hsucc h⟩
    · exact .inr ⟨rfl, rfl, hsucc h⟩

end AxiomApps
