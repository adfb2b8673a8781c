import AxiomApps.Discovery.FailureRuns
import AxiomApps.Routing.Shortest

/-!
# What a master with failing calls passes on

`axiom_master_node_discovery` returns `AXIOM_RET_OK` whatever ended the loop over the
interfaces. Where no id gets lost on the way, its matrix connects all ids it has given
out, and `axiom_compute_routing_tables` ends on it. Where the send of an id fails, the
id has been counted and nobody holds it.
-/

namespace AxiomApps.Discovery.Faulty

open FifoNet EventSystem Routing

variable {nic : NicLimits} {V : Type*} [DecidableEq V]

def Behind (nic : NicLimits) (t : Topology) (a b : ℕ) : Prop :=
  b ≠ axiomNullNode ∧ Routing.Linked nic t a b

variable {net : Network nic V} {master : V} {masterId : ℕ} {boot : V → Mem} {order : List V}
variable {s : State V} {tr : List (State V × Event V ℕ Msg)}

namespace Finished

theorem exists_ident (h : Finished net master masterId order s) {a : ℕ} (hmin : masterId ≤ a)
    (hmax : a < masterId + order.length) : ∃ x ∈ order, ident masterId order x = a := by
  have hlt : a - masterId < order.length := by omega
  refine ⟨order[a - masterId], List.getElem_mem hlt, ?_⟩
  rw [ident, h.nodup.idxOf_getElem]
  omega

/-- Every board but the master is linked with one found before it. -/
theorem exists_lower (h : Finished net master masterId order s) {x : V} (hx : x ∈ order)
    (hne : masterId < ident masterId order x) :
    ∃ y ∈ order, ident masterId order y < ident masterId order x ∧
      ∃ i < nic.interfacesNum, (s.node master).mem.topology (ident masterId order y) i =
        ident masterId order x := by
  have hxm : x ≠ master := by
    rintro rfl
    have hzero : order.idxOf x = 0 := by
      obtain ⟨l, rfl⟩ := List.head?_eq_some_iff.mp h.head
      simp
    simp [ident, hzero] at hne
  obtain ⟨y, hy, hlt, i, j, hwire, ⟨v, hv, hknows⟩ | ⟨_, hm, -⟩⟩ := h.covered x hx hxm
  · obtain rfl : v = master := List.mem_singleton.mp hv
    exact ⟨y, hy, Nat.add_lt_add_left hlt _, i, net.lt_interfacesNum hwire,
      h.sound.cell_eq hy hwire hknows⟩
  · cases hm

theorem reaches (h : Finished net master masterId order s) {a : ℕ} (hmin : masterId ≤ a)
    (hmax : a < masterId + order.length) :
    Relation.ReflTransGen (Behind nic (s.node master).mem.topology) masterId a := by
  induction a using Nat.strong_induction_on with
  | _ a ih =>
      rcases Nat.eq_or_lt_of_le hmin with rfl | hlt
      · exact .refl
      · obtain ⟨x, hx, rfl⟩ := h.exists_ident hmin hmax
        obtain ⟨y, hy, hyx, hlink⟩ := h.exists_lower hx hlt
        exact (ih _ hyx (Nat.le_add_right _ _) (by omega)).tail ⟨ident_ne_null h.room hx, hlink⟩

theorem symmetric (h : Finished net master masterId order s) :
    Symmetric nic (s.node master).mem.topology masterId (masterId + order.length) := by
  refine symmetric_of_lower h.room (fun a i _ _ hi hnull ↦ ?_) fun a hmin hmax ↦ ?_
  · obtain ⟨x, _, y, hy, j, -, -, hval⟩ := h.sound a i hi hnull
    have hlt := List.idxOf_lt_length_of_mem hy
    refine ⟨⟨?_, ?_⟩, h.mutual_ a i hi hnull⟩
    · rw [hval]
      exact Nat.le_add_right _ _
    · rw [hval]
      exact Nat.add_lt_add_left hlt _
  · obtain ⟨x, hx, rfl⟩ := h.exists_ident hmin.le hmax
    obtain ⟨y, hy, hyx, i, hi, hcell⟩ := h.exists_lower hx hmin
    -- the other end of the link is in the matrix too
    obtain ⟨w, hw, hback⟩ := h.mutual_ _ i hi (hcell ▸ ident_ne_null h.room hx)
    rw [hcell] at hback
    refine ⟨w, hw, ?_⟩
    rw [hback]
    exact ⟨Nat.le_add_right _ _, hyx⟩

theorem terminates (h : Finished net master masterId order s)
    (hcount : net.Simple ∨ masterId + order.length + nic.interfacesNum ≤ masterId + 256)
    (tables : ℕ → RoutingTable) :
    ∃ fuel₀ tables', ∀ fuel ≥ fuel₀, axiomComputeRoutingTables nic fuel
      (s.node master).mem.topology tables masterId (masterId + order.length) = some tables' := by
  refine exists_tables h.symmetric tables fun u hu ↦ exists_counted hu fun r hr ↦ ?_
  rcases hcount with hsimple | hroom
  · have hnull := ne_null h.symmetric hu
    refine (counted_eq_card h.symmetric hu (fun i hi hself ↦ ?_) (fun i hi j hj hn hij ↦ ?_) hr).ge
    · obtain ⟨x, hx, y, _, j, hwire, ha, hval⟩ := h.sound u i hi (hself.trans_ne hnull)
      have hxy : ident masterId order x = ident masterId order y := by
        rw [← hval, hself, ha]
      exact net.ne hwire (ident_inj hx hxy)
    · obtain ⟨x, hx, y, hy, k, hwire, ha, hval⟩ := h.sound u i hi hn
      obtain ⟨x', hx', y', _, k', hwire', ha', hval'⟩ := h.sound u j hj (hij ▸ hn)
      have hxx : ident masterId order x = ident masterId order x' := ha.symm.trans ha'
      have hyy : ident masterId order y = ident masterId order y' :=
        hval.symm.trans (hij.trans hval')
      obtain rfl := ident_inj hx hxx
      obtain rfl := ident_inj hy hyy
      exact hsimple hwire hwire'
  · exact card_le_counted h.symmetric hu hroom r

end Finished

/-- Where all steps of a run keep the ids and the master returns, all ids below
`*last_node` are reachable in its matrix; where the byte that counts them cannot wrap,
`axiom_compute_routing_tables` ends on it. -/
theorem masterReturned_reaches_all (net : Network nic V) (master : V) (masterId : ℕ)
    (boot : V → Mem) (hid : masterId < axiomNullNode)
    (h : Exec (step net) (init nic master masterId boot) tr s) (hkeep : Meets KeepsIds tr)
    {last : ℕ} (hpc : (s.node master).pc = .masterReturned .ok last) :
    (∀ a, masterId ≤ a → a < last →
        Relation.ReflTransGen (Behind nic (s.node master).mem.topology) masterId a) ∧
      (net.Simple ∨ last + nic.interfacesNum ≤ masterId + 256 → ∀ tables,
        ∃ fuel₀ tables', ∀ fuel ≥ fuel₀, axiomComputeRoutingTables nic fuel
          (s.node master).mem.topology tables masterId last = some tables') := by
  obtain ⟨order, hfin⟩ := (Phase.exec hid h hkeep).finished_of_returned hpc
  obtain rfl : masterId + order.length = last := by
    have heq := hfin.pc.symm.trans hpc
    simpa using heq
  exact ⟨fun a hmin hmax ↦ hfin.reaches hmin hmax, hfin.terminates⟩

/-- Three boards in a row: the one next to the master gives up on the last one. -/
def givesUp : List (Event (Fin 3) ℕ Msg) :=
  [.internal 0, .sent 0, .received 1 0 ⟨.reqId, 0, 0, 0, 0⟩, .sent 1,
    .received 0 1 ⟨.rspNoid, 0, 0, 0, 0⟩, .sent 0, .sent 0,
    .received 1 0 ⟨.setid, 0, 1, 0, 0⟩, .received 1 0 ⟨.start, 0, 1, 0, 0⟩,
    .sent 1, .received 0 1 ⟨.reqId, 1, 0, 0, 0⟩, .sent 0, .received 1 0 ⟨.rspId, 0, 1, 1, 0⟩,
    .sent 1, .recvError 1, .sent 1, .sent 1, .sent 1,
    .received 0 1 ⟨.topology, 0, 1, 1, 0⟩, .received 0 1 ⟨.topology, 1, 0, 0, 1⟩,
    .received 0 1 ⟨.endTopology, 1, 0, 0, 0⟩, .internal 0]

theorem masterReturned_reaches_givesUp :
    ∃ tr s, Exec (step (chain 2)) (init fourIfNic 0 0 fun _ ↦ coldMem) tr s ∧
      Meets KeepsIds tr ∧ (s.node 0).pc = .masterReturned .ok 2 ∧
      Relation.ReflTransGen (Behind fourIfNic (s.node 0).mem.topology) 0 1 ∧
      ∃ fuel tables, axiomComputeRoutingTables fourIfNic fuel (s.node 0).mem.topology
        (fun _ _ ↦ 0) 0 2 = some tables := by
  obtain ⟨tr, s, hexec, hkeep, hpc⟩ : ∃ tr s,
      Exec (step (chain 2)) (init fourIfNic 0 0 fun _ ↦ coldMem) tr s ∧
        Meets KeepsIds tr ∧ (s.node 0).pc = .masterReturned .ok 2 :=
    Exec.exists_of_run givesUp (by decide +kernel)
  obtain ⟨hreach, hend⟩ :=
    masterReturned_reaches_all (chain 2) 0 0 _ (by decide) hexec hkeep hpc
  obtain ⟨fuel, tables, htables⟩ := hend (.inr (by decide)) fun _ _ ↦ 0
  exact ⟨tr, s, hexec, hkeep, hpc, hreach 1 (by decide) (by decide), fuel, tables,
    htables fuel le_rfl⟩

/-- Three boards in a ring. Board 2 numbers board 1 and fails to start it; board 1 fails to
receive and is numbered again by the master. It then takes the first of the two ids. -/
def failedStart : List (Event (Fin 3) ℕ Msg) :=
  [.sent 0, .received 2 1 ⟨.reqId, 0, 0, 0, 0⟩, .sent 2, .received 0 0 ⟨.rspNoid, 0, 0, 1, 0⟩,
    .sent 0, .sent 0, .received 2 1 ⟨.setid, 0, 1, 0, 0⟩, .received 2 1 ⟨.start, 0, 1, 0, 0⟩,
    -- the request of board 2, and what it reports after the failed send
    .sent 2, .received 1 1 ⟨.reqId, 1, 0, 0, 0⟩, .sent 1, .received 2 0 ⟨.rspNoid, 0, 1, 1, 0⟩,
    .sent 2, .sendError 2, .sent 2, .sent 2, .sent 2, .received 0 0 ⟨.topology, 1, 2, 0, 1⟩,
    .received 0 0 ⟨.topology, 2, 1, 1, 0⟩, .received 0 0 ⟨.endTopology, 2, 0, 0, 0⟩, .recvError 1,
    -- the request of the master
    .sent 0, .received 1 0 ⟨.reqId, 0, 0, 0, 0⟩, .sent 1, .received 0 1 ⟨.rspNoid, 0, 0, 0, 0⟩,
    .sent 0, .sent 0, .received 1 1 ⟨.setid, 1, 2, 0, 0⟩, .received 1 0 ⟨.setid, 0, 3, 0, 0⟩,
    .received 1 0 ⟨.start, 0, 3, 0, 0⟩, .sent 1, .received 0 1 ⟨.reqId, 2, 0, 0, 0⟩, .sent 0,
    .received 1 0 ⟨.rspId, 0, 2, 1, 0⟩, .sent 1, .recvError 1, .sent 1, .sent 1, .sent 1,
    .received 0 1 ⟨.topology, 0, 2, 1, 0⟩, .received 0 1 ⟨.topology, 2, 0, 0, 1⟩,
    .received 0 1 ⟨.endTopology, 3, 0, 0, 0⟩, .internal 0]

/-- A failing `AXIOM_DSCV_CMD_START` alone is enough: the report of board 1 overwrites the
link to the id 3, and no link leads there from 0, 1 and 2. -/
example : ∃ tr s, Exec (step (ring 1)) (init fourIfNic 0 0 fun _ ↦ coldMem) tr s ∧
    Meets (fun s e ↦ (s.node 2).pc ≠ .sendStart 0 → KeepsIds s e) tr ∧
      (s.node 0).pc = .masterReturned .ok 4 ∧
        ∀ a ≤ 2, ∀ i < fourIfNic.interfacesNum, (s.node 0).mem.topology a i ≠ 3 :=
  Exec.exists_of_run failedStart (by decide +kernel)

/-- The master counts the id of its neighbour and fails to send it. -/
def failedSetid : List (Event (Fin 2) ℕ Msg) :=
  [.internal 0, .sent 0, .received 1 0 ⟨.reqId, 0, 0, 0, 0⟩, .sent 1,
    .received 0 1 ⟨.rspNoid, 0, 0, 0, 0⟩, .sendError 0]

/-- Two boards: the master returns successfully with an id nobody holds, and the search
for it never ends. -/
theorem failedSetid_passed_on :
    ∃ tr s, Exec (step (chain 1)) (init fourIfNic 0 0 fun _ ↦ coldMem) tr s ∧
      Meets (fun _ e ↦ e.Genuine) tr ∧ (s.node 0).pc = .masterReturned .ok 2 ∧
      ¬ Relation.ReflTransGen (Behind fourIfNic (s.node 0).mem.topology) 0 1 ∧
      ∀ fuel tables, axiomComputeRoutingTables fourIfNic fuel (s.node 0).mem.topology
        tables 0 2 = none := by
  obtain ⟨tr, s, hexec, hgen, hpc, hnull⟩ : ∃ tr s,
      Exec (step (chain 1)) (init fourIfNic 0 0 fun _ ↦ coldMem) tr s ∧
        Meets (fun _ e ↦ e.Genuine) tr ∧ (s.node 0).pc = .masterReturned .ok 2 ∧
          ∀ i < fourIfNic.interfacesNum, (s.node 0).mem.topology 0 i = axiomNullNode :=
    Exec.exists_of_run failedSetid (by decide +kernel)
  refine ⟨tr, s, hexec, hgen, hpc, fun hreach ↦ ?_,
    axiomComputeRoutingTables_eq_none hnull (by decide)⟩
  rcases hreach.cases_head with heq | ⟨b, ⟨hb, i, hi, rfl⟩, -⟩
  · cases heq
  · exact hb (hnull i hi)

end AxiomApps.Discovery.Faulty
