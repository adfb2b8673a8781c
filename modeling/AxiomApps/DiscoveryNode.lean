import AxiomApps.Discovery.Correctness
import AxiomApps.Routing.Commit
import AxiomApps.Routing.ParallelLinks
import AxiomApps.Traceroute

/-!
# From the first request to the last table

`axiom_discovery_master` discovers the network, computes the tables from its matrix, delivers
them and starts the flood; `axiom_discovery_slave` goes through the same phases. When the
master's discovery returns, so have those of the slaves, and nothing is in flight: the phases
do not overlap. At the end the registers of all boards lead along shortest paths of the
wiring.
-/

namespace AxiomApps.DiscoveryNode

open FifoNet EventSystem

variable {nic : NicLimits} {V : Type*}

/-! ## Networks without parallel links -/

/-- The boards, joined where there is a cable. -/
def wiring (net : Network nic V) : SimpleGraph V where
  Adj u v := ∃ i j, net.wire u i = some (v, j)
  symm := ⟨fun _ _ ⟨i, j, hwire⟩ ↦ ⟨j, i, net.symm hwire⟩⟩
  loopless := ⟨fun _ ⟨_, _, hwire⟩ ↦ net.ne hwire rfl⟩

theorem wiring_reachable (net : Network nic V) (u v : V) : (wiring net).Reachable u v := by
  induction net.connected u v with
  | refl => exact .refl u
  | tail _ hxy ih => exact ih.trans (SimpleGraph.Adj.reachable hxy)

/-! ## The matrix of a network -/

/-- The matrix `t` holds the wiring of boards numbered from `masterId` up to `lastNode`. -/
structure Mapped (net : Network nic V) (nodeId : V → ℕ) (t : Topology) (masterId lastNode : ℕ) :
    Prop where
  inj : Function.Injective nodeId
  range : ∀ a, (masterId ≤ a ∧ a < lastNode) ↔ ∃ v, nodeId v = a
  lastNode_le : lastNode ≤ axiomNullNode
  cell : ∀ u v i, i < nic.interfacesNum →
    (t (nodeId u) i = nodeId v ↔ ∃ j, net.wire u i = some (v, j))
  null : ∀ u i, i < nic.interfacesNum → net.wire u i = none → t (nodeId u) i = axiomNullNode

namespace Mapped

variable {net : Network nic V} {nodeId : V → ℕ} {t : Topology} {masterId lastNode : ℕ}

theorem mem_ids (h : Mapped net nodeId t masterId lastNode) (v : V) :
    nodeId v ∈ Routing.ids masterId lastNode :=
  Routing.mem_ids.mpr ((h.range _).mpr ⟨v, rfl⟩)

theorem exists_wire (h : Mapped net nodeId t masterId lastNode) {u : V} {i : ℕ}
    (hi : i < nic.interfacesNum) (hne : t (nodeId u) i ≠ axiomNullNode) :
    ∃ v j, net.wire u i = some (v, j) ∧ t (nodeId u) i = nodeId v := by
  cases hwire : net.wire u i with
  | none => exact absurd (h.null u i hi hwire) hne
  | some p => exact ⟨p.1, p.2, rfl, (h.cell u p.1 i hi).mpr ⟨p.2, hwire⟩⟩

theorem linked_iff (h : Mapped net nodeId t masterId lastNode) {u v : V} :
    Routing.Linked nic t (nodeId u) (nodeId v) ↔ (wiring net).Adj u v := by
  constructor
  · rintro ⟨i, hi, hcell⟩
    obtain ⟨j, hwire⟩ := (h.cell u v i hi).mp hcell
    exact ⟨i, j, hwire⟩
  · rintro ⟨i, j, hwire⟩
    have hi := net.lt_interfacesNum hwire
    exact ⟨i, hi, (h.cell u v i hi).mpr ⟨j, hwire⟩⟩

theorem adj_graph (h : Mapped net nodeId t masterId lastNode) {u v : V}
    (hadj : (wiring net).Adj u v) :
    (Routing.graph nic t masterId lastNode).Adj (nodeId u) (nodeId v) := by
  rw [Routing.graph, SimpleGraph.fromRel_adj]
  refine ⟨fun heq ↦ hadj.ne (h.inj heq), .inl ⟨?_, ?_, h.linked_iff.mpr hadj⟩⟩
  · exact (h.range _).mpr ⟨u, rfl⟩
  · exact (h.range _).mpr ⟨v, rfl⟩

theorem symmetric (h : Mapped net nodeId t masterId lastNode) :
    Routing.Symmetric nic t masterId lastNode where
  lastNode_le := h.lastNode_le
  closed a i hmin hmax hi hne := by
    obtain ⟨u, rfl⟩ := (h.range a).mp ⟨hmin, hmax⟩
    obtain ⟨v, j, -, hcell⟩ := h.exists_wire hi hne
    exact (h.range _).mpr ⟨v, hcell.symm⟩
  symm a i hmin hmax hi hne := by
    obtain ⟨u, rfl⟩ := (h.range a).mp ⟨hmin, hmax⟩
    obtain ⟨v, j, hwire, hcell⟩ := h.exists_wire hi hne
    rw [hcell]
    exact h.linked_iff.mpr ⟨j, i, net.symm hwire⟩
  connected a b ha ha' hb hb' := by
    obtain ⟨u, rfl⟩ := (h.range a).mp ⟨ha, ha'⟩
    obtain ⟨v, rfl⟩ := (h.range b).mp ⟨hb, hb'⟩
    exact (wiring_reachable net u v).map ⟨nodeId, h.adj_graph⟩

/-- Distances in the matrix are those of the wiring. -/
theorem dist_eq (h : Mapped net nodeId t masterId lastNode) (u v : V) :
    (Routing.graph nic t masterId lastNode).dist (nodeId u) (nodeId v) = (wiring net).dist u v := by
  have : Nonempty V := ⟨u⟩
  have hinv : ∀ w, Function.invFun nodeId (nodeId w) = w := Function.leftInverse_invFun h.inj
  have hback : ∀ {a b}, (Routing.graph nic t masterId lastNode).Adj a b →
      (wiring net).Adj (Function.invFun nodeId a) (Function.invFun nodeId b) := by
    intro a b hadj
    obtain ⟨ha, hb⟩ := Routing.Symmetric.range_of_adj hadj
    obtain ⟨x, rfl⟩ := (h.range a).mp ha
    obtain ⟨y, rfl⟩ := (h.range b).mp hb
    rw [hinv, hinv]
    exact h.linked_iff.mp ((h.symmetric.adj_iff ha hb).mp hadj).2
  exact Levels.dist_map_eq (G := wiring net) (H := Routing.graph nic t masterId lastNode)
    ⟨nodeId, h.adj_graph⟩ ⟨Function.invFun nodeId, hback⟩ (hinv u) (hinv v)
    (wiring_reachable net u v)

theorem ne_self (h : Mapped net nodeId t masterId lastNode) {a i : ℕ}
    (ha : a ∈ Routing.ids masterId lastNode) (hi : i < nic.interfacesNum) : t a i ≠ a := by
  obtain ⟨u, rfl⟩ := (h.range a).mp (Routing.mem_ids.mp ha)
  intro heq
  obtain ⟨j, hwire⟩ := (h.cell u u i hi).mp heq
  exact net.ne hwire rfl

theorem interface_unique (h : Mapped net nodeId t masterId lastNode) (hsimple : net.Simple)
    {a i j : ℕ} (ha : a ∈ Routing.ids masterId lastNode) (hi : i < nic.interfacesNum)
    (hj : j < nic.interfacesNum) (hne : t a i ≠ axiomNullNode) (heq : t a i = t a j) : i = j := by
  obtain ⟨u, rfl⟩ := (h.range a).mp (Routing.mem_ids.mp ha)
  obtain ⟨v, k, hwire, hcell⟩ := h.exists_wire hi hne
  obtain ⟨l, hwire'⟩ := (h.cell u v j hj).mp (heq.symm.trans hcell)
  exact hsimple hwire hwire'

theorem counted_eq_card (h : Mapped net nodeId t masterId lastNode) (hsimple : net.Simple)
    {a r : ℕ} (ha : a ∈ Routing.ids masterId lastNode) (hr : 1 ≤ r) :
    Routing.counted nic t masterId lastNode a r = (Levels.within
      (Routing.graph nic t masterId lastNode) (Routing.ids masterId lastNode) a r).card :=
  Routing.counted_eq_card h.symmetric ha (fun _ hi ↦ h.ne_self ha hi)
    (fun _ hi _ hj ↦ h.interface_unique hsimple ha hi hj) hr

/-- `axiom_compute_routing_tables` ends on the matrix of a network without parallel links,
whatever the array held. -/
theorem exists_tables (h : Mapped net nodeId t masterId lastNode) (hsimple : net.Simple)
    (tables : ℕ → RoutingTable) : ∃ fuel₀ tables', ∀ fuel ≥ fuel₀,
      Routing.axiomComputeRoutingTables nic fuel t tables masterId lastNode = some tables' :=
  Routing.exists_tables h.symmetric tables fun _ ha ↦
    Routing.exists_counted ha fun _ hr ↦ (h.counted_eq_card hsimple ha hr).ge

theorem shortest (h : Mapped net nodeId t masterId lastNode) (hsimple : net.Simple) {fuel : ℕ}
    {tables tables' : ℕ → RoutingTable}
    (hret : Routing.axiomComputeRoutingTables nic fuel t tables masterId lastNode = some tables') :
    Routing.Shortest nic t masterId lastNode tables' := by
  refine Routing.shortest_of_countsUp h.symmetric (fun a ha r hr hlt ↦ ?_) hret
  rwa [h.counted_eq_card hsimple ha (by omega)]

/-- Forwarding by shortest tables, at the boards. -/
theorem arrivesIn_dist (h : Mapped net nodeId t masterId lastNode) {tables : ℕ → RoutingTable}
    (htables : Routing.Shortest nic t masterId lastNode tables) {mask : V → IfMask} {v : V}
    (hmask : ∀ w, w ≠ v → mask w = tables (nodeId w) (nodeId v)) (u : V) :
    Forwarding.ArrivesIn (Discovery.out net) mask v ((wiring net).dist u v) u := by
  have harr := Routing.arrivesIn_dist h.symmetric (h.mem_ids v)
    (fun a ha hav ↦ htables a ha _ (h.mem_ids v) hav) (h.mem_ids u)
  rw [h.dist_eq] at harr
  refine harr.of_map h.inj hmask fun x hx i hi ↦ ?_
  rw [hmask x hx] at hi
  have hne : nodeId x ≠ nodeId v := fun heq ↦ hx (h.inj heq)
  obtain ⟨b, hadj, -, hlink⟩ := htables _ (h.mem_ids x) _ (h.mem_ids v) hne
  obtain ⟨hlt, hcell⟩ := (hlink i).mp hi
  have hnull : t (nodeId x) i ≠ axiomNullNode := by
    rw [hcell]
    exact Routing.ne_null h.symmetric (Routing.mem_ids.mpr (Routing.Symmetric.range_of_adj hadj).2)
  obtain ⟨y, j, hwire, hy⟩ := h.exists_wire hlt hnull
  rw [Routing.out, if_neg hnull, hy, Discovery.out, hwire]
  rfl

end Mapped

/-! ## The end of the discovery -/

def nodeId (s : Discovery.State V) (v : V) : ℕ := (s.node v).mem.nodeId

/-- When the master's discovery has returned, so have those of the slaves, and nothing is in
flight. -/
structure Discovered (net : Network nic V) (master : V) (masterId last : ℕ)
    (s : Discovery.State V) : Prop where
  masterId_eq : nodeId s master = masterId
  slaves : ∀ v, v ≠ master → (s.node v).pc = .returned
  quiet : ∀ v i, s.chan v i = []
  mapped : Mapped net (nodeId s) (s.node master).mem.topology masterId last

variable {net : Network nic V} {master : V} {masterId : ℕ} {boot : V → Discovery.Mem}
variable {tr : List (Discovery.State V × Event V ℕ Discovery.Msg)} {s : Discovery.State V}
variable {ret : AxiomRet} {last : ℕ}

section Returned

variable [DecidableEq V]

theorem exists_ident {order : List V} (hnodup : order.Nodup) (hall : ∀ v, v ∈ order)
    (masterId a : ℕ) : (masterId ≤ a ∧ a < masterId + order.length) ↔
      ∃ v, Discovery.ident masterId order v = a := by
  constructor
  · rintro ⟨hmin, hmax⟩
    have hlt : a - masterId < order.length := by omega
    refine ⟨order[a - masterId], ?_⟩
    rw [Discovery.ident, hnodup.idxOf_getElem]
    omega
  · rintro ⟨v, rfl⟩
    have hlt := List.idxOf_lt_length_of_mem (hall v)
    unfold Discovery.ident
    omega

variable [Fintype V]

theorem discovered_of_returned (hroom : masterId + Fintype.card V ≤ 255)
    (h : Exec (Discovery.step net) (Discovery.init nic master masterId boot) tr s)
    (hfree : Meets (fun _ e ↦ e.Faultless) tr)
    (hret : (s.node master).pc = .masterReturned ret last) :
    ret = .ok ∧ Discovered net master masterId last s := by
  obtain ⟨order, hinv, -⟩ := Discovery.Inv.exec_of_room h hfree hroom
  obtain ⟨hok, hlast, hquiet, hrest, i, hi, hexp⟩ := hinv.at_end hret
  obtain ⟨hall, -, hids, hknows⟩ := hexp.complete hi
  have hids' : ∀ v, nodeId s v = Discovery.ident masterId order v := hids
  have hsound := hexp.sound master hexp.top_mem
  have hlen : last = masterId + order.length := by
    have hroom' := hexp.room
    omega
  refine ⟨hok, ⟨?_, fun v hv ↦ ?_, hquiet, ?_⟩⟩
  · rw [hids', hexp.ident_master]
  · rw [hrest v hv, Discovery.restPc, if_pos (hall v)]
  · refine ⟨fun u v huv ↦ ?_, fun a ↦ ?_, hlen ▸ hexp.room, fun u v k hk ↦ ?_,
      fun u k hk hnone ↦ ?_⟩
    · rw [hids', hids'] at huv
      exact Discovery.ident_inj (hall u) huv
    · rw [hlen, exists_ident hexp.nodup hall]
      simp only [hids']
    · rw [hids', hids']
      exact hsound.cell_iff hexp.room hall hknows hk
    · rw [hids']
      refine hsound.cell_null hk ?_
      rintro ⟨x, p, heq, hwire⟩
      rw [Discovery.ident_inj (hall u) heq, hwire] at hnone
      cases hnone

end Returned

/-! ## The routing phase of the discovered network -/

/-- The routing phase `axiom_discovery_master` and `axiom_discovery_slave` go on with: the
boards keep the ids and the registers they have, and the master delivers `tables`. -/
structure GoesOn (net : Network nic V) (master : V) (last : ℕ) (tables : ℕ → RoutingTable)
    (s : Discovery.State V) (D : Delivery.Job nic) : Prop where
  masterId : D.masterId = nodeId s master
  lastNode : D.lastNode = last
  tables : D.routingTables = tables
  links : ∀ u i, D.links (nodeId s u) i = (net.wire u i).map fun p ↦ (nodeId s p.1, p.2)
  hardware : ∀ u, D.hardware (nodeId s u) = (s.node u).mem.routing

/-- The routing registers of a board. -/
def registers (D : Delivery.Job nic) (s : Delivery.State) (w : ℕ) : RoutingTable :=
  match s.node w with
  | .set f => f.mem.hardware
  | _ => D.hardware w

namespace Discovered

variable {tables : ℕ → RoutingTable} {D : Delivery.Job nic}

theorem mem_boards (h : Discovered net master masterId last s)
    (hD : GoesOn net master last tables s D) (v : V) :
    nodeId s v ∈ Finset.Ico D.masterId D.lastNode := by
  rw [hD.masterId, hD.lastNode, h.masterId_eq]
  exact h.mapped.mem_ids v

theorem exists_wiredAs (h : Discovered net master masterId last s)
    (hD : GoesOn net master last tables s D) : ∃ net' : Network nic D.Board, D.WiredAs net' := by
  have hbij : Function.Bijective fun v ↦ (⟨nodeId s v, h.mem_boards hD v⟩ : D.Board) := by
    refine ⟨fun u v huv ↦ h.mapped.inj (congrArg Subtype.val huv), fun ⟨a, ha⟩ ↦ ?_⟩
    have ha' := Finset.mem_Ico.mp ha
    rw [hD.masterId, hD.lastNode, h.masterId_eq] at ha'
    obtain ⟨v, hv⟩ := (h.mapped.range a).mp ha'
    exact ⟨v, Subtype.ext hv⟩
  refine ⟨net.map (.ofBijective _ hbij), fun w i ↦ ?_⟩
  obtain ⟨v, rfl⟩ := hbij.surjective w
  have hv : (Equiv.ofBijective _ hbij).symm ⟨nodeId s v, h.mem_boards hD v⟩ = v :=
    Equiv.ofBijective_symm_apply_apply _ hbij v
  simp only [hD.links, Network.map, hv, Option.map_map]
  rfl

/-- Such a phase exists: every board's data is at hand. -/
theorem exists_goesOn (h : Discovered net master masterId last s) (tables : ℕ → RoutingTable) :
    ∃ D, GoesOn net master last tables s D := by
  have : Nonempty V := ⟨master⟩
  have hinv : ∀ w, Function.invFun (nodeId s) (nodeId s w) = w :=
    Function.leftInverse_invFun h.mapped.inj
  have hmaster := (h.mapped.range _).mpr ⟨master, rfl⟩
  refine ⟨⟨nodeId s master, last, hmaster.2, h.mapped.lastNode_le, tables,
    fun a i ↦ (net.wire (Function.invFun (nodeId s) a) i).map fun p ↦ (nodeId s p.1, p.2),
    fun a ↦ (s.node (Function.invFun (nodeId s) a)).mem.routing⟩, rfl, rfl, rfl, ?_, ?_⟩
  · intro u i
    simp only [hinv]
  · intro u
    simp only [hinv]

/-- At the end of the phase a board's registers hold its row for the other boards. -/
theorem registers_eq (h : Discovered net master masterId last s)
    (hD : GoesOn net master last tables s D) {s' : Delivery.State} {u v : V}
    (hu : Delivery.Committed D (nodeId s u) (s'.node (nodeId s u))) (huv : u ≠ v) :
    registers D s' (nodeId s u) (nodeId s v) = tables (nodeId s u) (nodeId s v) := by
  obtain ⟨f, hf, -, -, hhard⟩ := hu
  have hv := h.mem_boards hD v
  have hlt : nodeId s v < D.lastNode := (Finset.mem_Ico.mp hv).2
  have hnum : nodeId s v < nic.nodesNum := by
    have hle := D.lastNode_le
    have hnum := nic.le_nodesNum
    omega
  have hne : nodeId s v ≠ nodeId s u := fun heq ↦ huv (h.mapped.inj heq).symm
  simp only [registers, hf]
  rw [hhard _ hnum, Function.update_of_ne hne, Delivery.Job.table]
  split
  · next hmaster => rw [hD.tables, hmaster]
  · rw [Delivery.Job.row, if_pos hlt, hD.tables]

theorem arrivesIn_dist (h : Discovered net master masterId last s)
    (htables : Routing.Shortest nic (s.node master).mem.topology masterId last tables)
    (hD : GoesOn net master last tables s D) {s' : Delivery.State}
    (hdone : ∀ w, Delivery.Committed D (nodeId s w) (s'.node (nodeId s w))) (u v : V) :
    Forwarding.ArrivesIn (Discovery.out net)
      (fun w ↦ registers D s' (nodeId s w) (nodeId s v)) v ((wiring net).dist u v) u :=
  h.mapped.arrivesIn_dist htables (fun w hw ↦ h.registers_eq hD (hdone w) hw) u

end Discovered

section Main

variable [DecidableEq V] [Fintype V]

/-- In a network without parallel links, all that `axiom_discovery_master` and
`axiom_discovery_slave` do after a fault-free discovery comes to its end: the tables are
computed, whatever their array held; a fault-free routing phase is no longer than its first
weight and can go on until all boards have returned; and then their registers take every
message along a shortest path. -/
theorem discovery_routes_shortest (net : Network nic V) (hsimple : net.Simple) (master : V)
    (masterId : ℕ) (boot : V → Discovery.Mem) (hroom : masterId + Fintype.card V ≤ 255)
    (h : Exec (Discovery.step net) (Discovery.init nic master masterId boot) tr s)
    (hfree : Meets (fun _ e ↦ e.Faultless) tr)
    (hret : (s.node master).pc = .masterReturned ret last) (tables : ℕ → RoutingTable) :
    ret = .ok ∧ (∀ v, v ≠ master → (s.node v).pc = .returned) ∧ (∀ v i, s.chan v i = []) ∧
      ∃ fuel₀ tables', (∀ fuel ≥ fuel₀, Routing.axiomComputeRoutingTables nic fuel
          (s.node master).mem.topology tables masterId last = some tables') ∧
        ∀ D, GoesOn net master last tables' s D → ∀ tr' s',
          Exec (Delivery.step D) (Delivery.init D) tr' s' → Meets (fun _ e ↦ e.Faultless) tr' →
            tr'.length ≤ Delivery.weight D (Delivery.init D) ∧
              ((∃ e s'', e.Faultless ∧ Delivery.step D s' e = some s'') ∨
                (∀ w, Delivery.Committed D (nodeId s w) (s'.node (nodeId s w))) ∧
                  ∀ u v, Forwarding.ArrivesIn (Discovery.out net)
                    (fun w ↦ registers D s' (nodeId s w) (nodeId s v)) v
                    ((wiring net).dist u v) u) := by
  obtain ⟨hok, hdisc⟩ := discovered_of_returned hroom h hfree hret
  obtain ⟨fuel₀, tables', htables⟩ := hdisc.mapped.exists_tables hsimple tables
  have hshort := hdisc.mapped.shortest hsimple (htables fuel₀ le_rfl)
  refine ⟨hok, hdisc.slaves, hdisc.quiet, fuel₀, tables', htables, fun D hD tr' s' h' hfree' ↦ ?_⟩
  obtain ⟨net', hnet⟩ := hdisc.exists_wiredAs hD
  refine ⟨le_of_add_le_left (Delivery.length_le_weight hnet h' hfree'), ?_⟩
  by_cases hstuck : Delivery.Stuck D s'
  · have hcommitted : ∀ w, Delivery.Committed D (nodeId s w) (s'.node (nodeId s w)) := fun w ↦
      Delivery.committed_of_stuck hnet h' hfree' hstuck ⟨nodeId s w, hdisc.mem_boards hD w⟩
    exact .inr ⟨hcommitted, hdisc.arrivesIn_dist hshort hD hcommitted⟩
  · simp only [Delivery.Stuck, not_forall, not_not] at hstuck
    obtain ⟨e, s'', he, hs⟩ := hstuck
    exact .inl ⟨e, s'', he, hs⟩

theorem chain_simple (n : ℕ) : (chain n).Simple := by
  intro u v i j k l hi hj
  rcases chainWire_eq_some.mp hi with ⟨rfl, -, hv⟩ | ⟨rfl, -, hv⟩ <;>
    rcases chainWire_eq_some.mp hj with ⟨rfl, -, hv'⟩ | ⟨rfl, -, hv'⟩ <;> omega

/-- On a chain of three boards all of it takes place. -/
theorem discovery_routes_chain : ∃ tr s last tables' D tr' s',
    Exec (Discovery.step (chain 2)) (Discovery.init fourIfNic 0 0 fun _ ↦ Discovery.coldMem) tr s ∧
      GoesOn (chain 2) 0 last tables' s D ∧ Exec (Delivery.step D) (Delivery.init D) tr' s' ∧
      ∀ u v, Forwarding.ArrivesIn (Discovery.out (chain 2))
        (fun w ↦ registers D s' (nodeId s w) (nodeId s v)) v ((wiring (chain 2)).dist u v) u := by
  obtain ⟨tr, s, ret, last, h, hfree, hret⟩ :=
    Discovery.exists_complete_run (chain 2) 0 0 (fun _ ↦ Discovery.coldMem) (by decide)
  obtain ⟨-, hdisc⟩ := discovered_of_returned (by decide) h hfree hret
  obtain ⟨-, -, -, -, tables', -, hphase⟩ := discovery_routes_shortest (chain 2) (chain_simple 2)
    0 0 _ (by decide) h hfree hret fun _ _ ↦ 0
  obtain ⟨D, hD⟩ := hdisc.exists_goesOn tables'
  obtain ⟨net', hnet⟩ := hdisc.exists_wiredAs hD
  obtain ⟨tr', s', h', hfree', hstuck⟩ := Delivery.exists_complete_phase hnet
  obtain ⟨-, ⟨e, s'', he, hs⟩ | ⟨-, harr⟩⟩ := hphase D hD tr' s' h' hfree'
  · exact absurd hs (hstuck e s'' he)
  · exact ⟨tr, s, last, tables', D, tr', s', h, hD, h', harr⟩

/-! ## What axiom-traceroute shows -/

/-- The network as axiom-traceroute sees it: `axiom_next_hop` picks one of the interfaces in
the registers for the destination. -/
structure Traced (net : Network nic V) (mask : V → V → IfMask) (T : Traceroute.Network V ℕ) :
    Prop where
  links : T.links = Discovery.out net
  nextHop : ∀ x y, x ≠ y → ∃ i, T.nextHop x y = some i ∧ (mask x y).getLsbD i = true

omit [DecidableEq V] [Fintype V] in
theorem exists_traced {mask : V → V → IfMask} (harr : ∀ u v,
    Forwarding.ArrivesIn (Discovery.out net) (fun w ↦ mask w v) v ((wiring net).dist u v) u) :
    ∃ T, Traced net mask T := by
  have hbit : ∀ x y, ∃ i, x ≠ y → (mask x y).getLsbD i = true := by
    intro x y
    by_cases hxy : x = y
    · exact ⟨0, fun hne ↦ absurd hxy hne⟩
    · have hxy' := harr x y
      obtain ⟨n, hn⟩ := Nat.exists_eq_add_one.mpr ((wiring_reachable net x y).pos_dist_of_ne hxy)
      rw [hn] at hxy'
      obtain ⟨-, ⟨i, hi⟩, -⟩ := hxy'
      exact ⟨i, fun _ ↦ hi⟩
  choose f hf using hbit
  exact ⟨⟨fun x y ↦ some (f x y), Discovery.out net⟩, rfl, fun x y hxy ↦ ⟨_, rfl, hf x y hxy⟩⟩

/-- Once all boards have set the tables computed from the discovery, axiom-traceroute finds a
route from every board to every other, and reports as many hops as they are apart, whichever
interfaces the messages take. -/
theorem traceroute_reports_distance (net : Network nic V) (hsimple : net.Simple) (master : V)
    (masterId : ℕ) (boot : V → Discovery.Mem) (hroom : masterId + Fintype.card V ≤ 255)
    (h : Exec (Discovery.step net) (Discovery.init nic master masterId boot) tr s)
    (hfree : Meets (fun _ e ↦ e.Faultless) tr)
    (hret : (s.node master).pc = .masterReturned ret last) {fuel : ℕ}
    {tables tables' : ℕ → RoutingTable}
    (hcompute : Routing.axiomComputeRoutingTables nic fuel (s.node master).mem.topology tables
      masterId last = some tables')
    {D : Delivery.Job nic} (hD : GoesOn net master last tables' s D) {s' : Delivery.State}
    (hdone : ∀ w, Delivery.Committed D (nodeId s w) (s'.node (nodeId s w)))
    {T : Traceroute.Network V ℕ}
    (hT : Traced net (fun x y ↦ registers D s' (nodeId s x) (nodeId s y)) T)
    {nodesMax : ℕ} (hmin : Fintype.card V ≤ nodesMax) (hmax : nodesMax ≤ 255) {u v : V}
    (huv : u ≠ v) :
    ∃ s₀, Traceroute.start T u v nodesMax = some s₀ ∧
      ∀ tr'' s'', Exec (Traceroute.next T u v) s₀ tr'' s'' →
        tr''.length ≤ 2 * (wiring net).dist u v ∧
        ((∀ e, Traceroute.next T u v s'' e = none) →
          s''.client.phase = .reported ((wiring net).dist u v)) ∧
        ∀ hops, s''.client.phase = .reported hops → hops = (wiring net).dist u v := by
  obtain ⟨-, hdisc⟩ := discovered_of_returned hroom h hfree hret
  have harr := hdisc.arrivesIn_dist (hdisc.mapped.shortest hsimple hcompute) hD hdone u v
  obtain ⟨n, hn⟩ := Nat.exists_eq_add_one.mpr ((wiring_reachable net u v).pos_dist_of_ne huv)
  rw [hn] at harr ⊢
  have hhop : ∀ x, x ≠ v → ∃ i, (registers D s' (nodeId s x) (nodeId s v)).getLsbD i = true ∧
      T.hop v x = Discovery.out net x i := by
    intro x hx
    obtain ⟨i, hi, hbit⟩ := hT.nextHop x v hx
    exact ⟨i, hbit, by rw [Traceroute.Network.hop, hi, hT.links, Option.bind_some]⟩
  obtain ⟨path, hlen, hhead, hleads⟩ := harr.exists_leads hhop
  have hle : path.length ≤ nodesMax := hleads.nodup.length_le_card.trans hmin
  refine ⟨_, Traceroute.start_eq_some hhead hleads, fun tr'' s'' hexec ↦ ?_⟩
  obtain ⟨handled, rest, rfl, hprogress, hcount⟩ :=
    Traceroute.progress_of_exec hleads hle hmax rfl hexec
  rw [← hlen]
  refine ⟨?_, fun hstuck ↦ ?_, fun hops hphase ↦ (hprogress.reported hle hphase).1⟩
  · have hlength := hprogress.length_printed
    rw [List.length_append]
    omega
  · have hphase := hprogress.reported_of_stuck hleads hstuck
    rwa [(hprogress.reported hle hphase).1] at hphase

theorem traceroute_reports_chain : ∃ (T : Traceroute.Network (Fin 3) ℕ) (s₀ : _),
    T.links = Discovery.out (chain 2) ∧ Traceroute.start T 0 2 255 = some s₀ ∧
      ∀ tr s, Exec (Traceroute.next T 0 2) s₀ tr s →
        ∀ hops, s.client.phase = .reported hops → hops = (wiring (chain 2)).dist 0 2 := by
  obtain ⟨tr, s, ret, last, h, hfree, hret⟩ :=
    Discovery.exists_complete_run (chain 2) 0 0 (fun _ ↦ Discovery.coldMem) (by decide)
  obtain ⟨-, hdisc⟩ := discovered_of_returned (by decide) h hfree hret
  obtain ⟨fuel, tables, htables⟩ := hdisc.mapped.exists_tables (chain_simple 2) fun _ _ ↦ 0
  obtain ⟨D, hD⟩ := hdisc.exists_goesOn tables
  obtain ⟨net', hnet⟩ := hdisc.exists_wiredAs hD
  obtain ⟨tr', s', h', hfree', hstuck⟩ := Delivery.exists_complete_phase hnet
  have hdone : ∀ w, Delivery.Committed D (nodeId s w) (s'.node (nodeId s w)) := fun w ↦
    Delivery.committed_of_stuck hnet h' hfree' hstuck ⟨nodeId s w, hdisc.mem_boards hD w⟩
  have hshort := hdisc.mapped.shortest (chain_simple 2) (htables fuel le_rfl)
  obtain ⟨T, hT⟩ := exists_traced (hdisc.arrivesIn_dist hshort hD hdone)
  obtain ⟨s₀, hstart, hruns⟩ := traceroute_reports_distance (chain 2) (chain_simple 2) 0 0 _
    (by decide) h hfree hret (htables fuel le_rfl) hD hdone hT (by decide) (le_refl 255)
    (u := 0) (v := 2) (by decide)
  exact ⟨T, s₀, hT.links, hstart, fun tr s hexec ↦ (hruns tr s hexec).2.2⟩

end Main

end AxiomApps.DiscoveryNode
