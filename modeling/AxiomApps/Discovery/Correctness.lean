import AxiomApps.Discovery.Runs
import AxiomApps.Lib.Forwarding

/-!
# What a fault-free discovery achieves

When the master returns, the boards are numbered in depth-first order, its matrix is
the wiring, and the tables written on the way route between the master and every
board. Until then no request waits at a board that cannot answer it.
-/

namespace AxiomApps.Discovery

open FifoNet EventSystem

variable {nic : NicLimits} {V : Type*} [DecidableEq V] [Fintype V] {net : Network nic V}
variable {master : V} {masterId : ℕ} {order : List V} {s : State V} {boot : V → Mem}
variable {tr : List (State V × Event V ℕ Msg)}

/-! ## The master's return -/

section Returned

omit [Fintype V] in
theorem restPc_ne_masterReturned (masterId : ℕ) (order : List V) (c : V) (stack : Stack V) (w : V)
    (ret : AxiomRet) (last : ℕ) :
    restPc masterId order c stack w ≠ .masterReturned ret last := by
  induction stack generalizing c with
  | nil =>
      rw [restPc]
      split <;> simp
  | cons f st ih =>
      obtain ⟨p, i⟩ := f
      rw [restPc]
      split
      · simp
      · exact ih p

omit [Fintype V] in
theorem pc_cases {node : V → Node} {f : V → Pc} {a : V} {x : Pc}
    (h : pcs node = Function.update f a x) (w : V) : (node w).pc = x ∨ (node w).pc = f w := by
  by_cases hw : w = a
  · subst hw
    exact .inl (pc_of_pcs h)
  · exact .inr (pc_of_pcs_ne h hw)

/-- When the master has returned, nothing is in flight. -/
theorem Inv.at_end (h : Inv net master masterId order s) {ret : AxiomRet} {last : ℕ}
    (hret : (s.node master).pc = .masterReturned ret last) :
    ret = .ok ∧ last = (masterId + order.length) % 256 ∧ (∀ v k, s.chan v k = []) ∧
      (∀ w, w ≠ master → (s.node w).pc = restPc masterId order master [] w) ∧
      ∃ i, net.ifNumber master ≤ i ∧
        Exploring net master masterId order master [] i (mems s.node) := by
  have hrest : ∀ c stack, restPc masterId order c stack master ≠ .masterReturned ret last :=
    fun c stack ↦ restPc_ne_masterReturned masterId order c stack master ret last
  -- only the last stage has the master at its return
  have hone : ∀ {c a : V} {stack : Stack V} {x : Pc},
      pcs s.node = Function.update (restPc masterId order c stack) a x →
        x = .masterReturned ret last := by
    intro c a stack x hpc
    rcases pc_cases hpc master with hx | hx
    · exact hx.symm.trans hret
    · exact absurd (hx.symm.trans hret) (hrest c stack)
  have htwo : ∀ {c a b : V} {stack : Stack V} {x y : Pc},
      pcs s.node = Function.update (Function.update (restPc masterId order c stack) a x) b y →
        x = .masterReturned ret last ∨ y = .masterReturned ret last := by
    intro c a b stack x y hpc
    rcases pc_cases hpc master with hy | hx
    · exact .inr (hy.symm.trans hret)
    · by_cases ha : master = a
      · subst ha
        rw [Function.update_self] at hx
        exact .inl (hx.symm.trans hret)
      · rw [Function.update_of_ne ha] at hx
        exact absurd (hx.symm.trans hret) (hrest c stack)
  cases h with
  | exploring hpc => cases hone hpc
  | asked hpc => cases hone hpc
  | answering hpc => rcases htwo hpc with hx | hx <;> cases hx
  | answered hpc => cases hone hpc
  | greeting hpc => rcases htwo hpc with hx | hx <;> cases hx
  | greeted hpc => rcases htwo hpc with hx | hx <;> cases hx
  | numbering hpc => rcases htwo hpc with hx | hx <;> cases hx
  | starting named started hpc =>
      rcases htwo hpc with hx | hx
      · cases named <;> cases hx
      · cases started <;> cases hx
  | reporting hpc => cases hone hpc
  | closing hpc => exact absurd ((congrFun hpc master).symm.trans hret) (hrest _ _)
  | finished hpc h hi =>
      cases hone hpc
      exact ⟨rfl, rfl, fun _ _ ↦ by simp [Net.single], fun _ hw ↦ pc_of_pcs_ne hpc hw, _, hi, h⟩

theorem Inv.returned (h : Inv net master masterId order s) {ret : AxiomRet} {last : ℕ}
    (hret : (s.node master).pc = .masterReturned ret last) :
    ret = .ok ∧ last = (masterId + order.length) % 256 ∧ ∃ i, net.ifNumber master ≤ i ∧
      Exploring net master masterId order master [] i (mems s.node) := by
  obtain ⟨hok, hlast, -, -, hexp⟩ := h.at_end hret
  exact ⟨hok, hlast, hexp⟩

/-- Past the master's last interface everything has been found. -/
theorem Exploring.complete {mem : V → Mem} {i : ℕ}
    (h : Exploring net master masterId order master [] i mem) (hi : net.ifNumber master ≤ i) :
    (∀ v, v ∈ order) ∧ order = (portGraph net).preorder master ∧
      (∀ v, (mem v).nodeId = ident masterId order v) ∧
      ∀ v, KnowsAll net masterId order (mem master).topology v := by
  have hknows : ∀ x ∈ order, KnowsAll net masterId order (mem master).topology x := by
    intro x hx
    refine h.knowsAll_top hi hx ?_
    rw [h.idxOf_master]
    exact Nat.zero_le _
  have hall : ∀ v, v ∈ order := by
    refine net.mem_of_closed h.top_mem fun x k y j hx hwire ↦ ?_
    exact (h.sound master h.top_mem).mem_of_knows hx hwire (hknows x hx k _ hwire)
  refine ⟨hall, ?_, ?_, fun v ↦ hknows v (hall v)⟩
  · have hdfs := h.dfs
    rw [PortGraph.resume, (portGraph net).explore_of_le hi] at hdfs
    exact hdfs
  · intro v
    by_cases hv : v = master
    · subst hv
      exact h.id
    · exact h.ids v (hall v) hv

theorem Exploring.length_eq {mem : V → Mem} {i : ℕ}
    (h : Exploring net master masterId order master [] i mem) (hi : net.ifNumber master ≤ i) :
    order.length = Fintype.card V := by
  obtain ⟨hall, -⟩ := h.complete hi
  have huniv : order.toFinset = Finset.univ :=
    Finset.eq_univ_of_forall fun v ↦ List.mem_toFinset.mpr (hall v)
  rw [← List.toFinset_card_of_nodup h.nodup, huniv, Finset.card_univ]

omit [Fintype V] in
/-- A sound matrix that knows everything is the wiring. -/
theorem Sound.cell_iff {t : Topology} (ht : Sound net masterId order t)
    (hroom : masterId + order.length ≤ 255) (hall : ∀ v, v ∈ order)
    (hknows : ∀ v, KnowsAll net masterId order t v) {u v : V} {i : ℕ}
    (hi : i < nic.interfacesNum) :
    t (ident masterId order u) i = ident masterId order v ↔ ∃ j, net.wire u i = some (v, j) := by
  constructor
  · intro hcell
    have hne : t (ident masterId order u) i ≠ axiomNullNode := by
      rw [hcell]
      exact ident_ne_null hroom (hall v)
    obtain ⟨x, hx, y, hy, j, hwire, hux, hval⟩ := ht _ i hi hne
    obtain rfl := ident_inj (hall u) hux
    obtain rfl := ident_inj (hall v) (hcell.symm.trans hval)
    exact ⟨j, hwire⟩
  · rintro ⟨j, hwire⟩
    exact ht.cell_eq (hall u) hwire (hknows u i _ hwire)

omit [Fintype V] in
theorem Sound.cell_null {t : Topology} (ht : Sound net masterId order t) {a i : ℕ}
    (hi : i < nic.interfacesNum)
    (h : ¬ ∃ u p, a = ident masterId order u ∧ net.wire u i = some p) : t a i = axiomNullNode := by
  by_contra hne
  obtain ⟨x, -, y, -, j, hwire, ha, -⟩ := ht a i hi hne
  exact h ⟨x, (y, j), ha, hwire⟩

end Returned

/-- In a fault-free run at whose end the master has returned, the boards hold their
depth-first numbers and the master's matrix is the wiring. -/
theorem master_discovers_network (net : Network nic V) (master : V) (masterId : ℕ)
    (boot : V → Mem) (hroom : masterId + Fintype.card V ≤ 255)
    (h : Exec (step net) (init nic master masterId boot) tr s)
    (hfree : Meets (fun _ e ↦ e.Faultless) tr) {ret : AxiomRet} {last : ℕ}
    (hret : (s.node master).pc = .masterReturned ret last) :
    ret = .ok ∧ last = masterId + Fintype.card V ∧
      ((portGraph net).preorder master).Nodup ∧
      (∀ v, v ∈ (portGraph net).preorder master) ∧
      (∀ v, (s.node v).mem.nodeId = masterId + ((portGraph net).preorder master).idxOf v) ∧
      (∀ u v i, i < nic.interfacesNum →
        ((s.node master).mem.topology (s.node u).mem.nodeId i = (s.node v).mem.nodeId ↔
          ∃ j, net.wire u i = some (v, j))) ∧
      ∀ a i, i < nic.interfacesNum →
        (¬ ∃ u p, a = (s.node u).mem.nodeId ∧ net.wire u i = some p) →
          (s.node master).mem.topology a i = axiomNullNode := by
  obtain ⟨order, hinv, -⟩ := Inv.exec_of_room h hfree hroom
  obtain ⟨rfl, rfl, i, hi, hexp⟩ := hinv.returned hret
  obtain ⟨hall, hpre, hids, hknows⟩ := hexp.complete hi
  have hlen := hexp.length_eq hi
  have hsound := hexp.sound master hexp.top_mem
  have hids' : ∀ v, (s.node v).mem.nodeId = ident masterId order v := hids
  refine ⟨rfl, ?_, hpre ▸ hexp.nodup, fun v ↦ hpre ▸ hall v, fun v ↦ hpre ▸ hids v, ?_, ?_⟩
  · have hpos : 0 < Fintype.card V := Fintype.card_pos_iff.mpr ⟨master⟩
    rw [hlen]
    omega
  · intro u v k hk
    rw [hids' u, hids' v]
    exact hsound.cell_iff hexp.room hall hknows hk
  · intro a k hk hnone
    refine hsound.cell_null hk ?_
    rintro ⟨u, p, ha, hwire⟩
    exact hnone ⟨u, p, ha.trans (hids' u).symm, hwire⟩

theorem master_discovers_chain :
    ∃ tr s last, Exec (step (chain 2)) (init fourIfNic 0 0 fun _ ↦ coldMem) tr s ∧
      Meets (fun _ e ↦ e.Faultless) tr ∧ (s.node 0).pc = .masterReturned .ok last ∧ last = 3 ∧
      (s.node 0).mem.topology (s.node 1).mem.nodeId 1 = (s.node 2).mem.nodeId := by
  obtain ⟨tr, s, ret, last, hexec, hfree, hret⟩ :=
    exists_complete_run (chain 2) 0 0 (fun _ ↦ coldMem) (by decide)
  obtain ⟨rfl, hlast, -, -, -, hcell, -⟩ :=
    master_discovers_network (chain 2) 0 0 _ (by decide) hexec hfree hret
  refine ⟨tr, s, last, hexec, hfree, hret, hlast, ?_⟩
  exact (hcell 1 2 1 (by decide)).mpr ⟨0, by decide⟩

/-! ## Requests are answered -/

/-- The board has sent its `AXIOM_DSCV_CMD_END_TOPOLOGY`. -/
def Reported (tr : List (State V × Event V ℕ Msg)) (v : V) : Prop :=
  ∃ s iface, (s, .sent v) ∈ tr ∧ (s.node v).pc = .report iface []

omit [Fintype V] in
theorem pc_of_reported (h : Exec (step net) (init nic master masterId boot) tr s) {v : V}
    (hv : Reported tr v) : (s.node v).pc = .returned := by
  induction h with
  | nil =>
      obtain ⟨_, _, hmem, _⟩ := hv
      cases hmem
  | @snoc tr s s' e h hs ih =>
      obtain ⟨s₁, iface, hmem, hpc⟩ := hv
      rcases List.mem_append.mp hmem with hmem | hmem
      · -- it has returned and takes no more steps
        have hat := ih ⟨s₁, iface, hmem, hpc⟩
        have hne : v ≠ e.at := by
          rintro rfl
          exact next_not_halted hs (by simp [program, call, hat])
        rw [next_node_of_ne hs hne]
        exact hat
      · obtain ⟨rfl, rfl⟩ : s₁ = s ∧ _ = e := by simpa using hmem
        obtain ⟨_, _, -, rfl⟩ := next_sent_iff.mp hs
        simp [program, onSent, hpc]

theorem Inv.reqId_for (h : Inv net master masterId order s) {v : V} {j : ℕ} {m : Msg}
    (hm : m ∈ s.chan v j) (hcmd : m.command = .reqId) :
    (s.node v).pc = .listen ∨ ∃ i startNode, (s.node v).pc = .waitEnd i startNode := by
  cases h.underWay hm with
  | request _ hpc => exact hpc
  | answer hcmd' => simp [hcmd] at hcmd'
  | number hcmd' => simp [hcmd] at hcmd'
  | report hcmd' => simp [hcmd] at hcmd'

theorem Inv.answer (h : Inv net master masterId order s) {u : V} {i k : ℕ} {m : Msg}
    {q : List Msg} (hpc : (s.node u).pc = .waitRsp i) (hchan : s.chan u k = m :: q) :
    k = i ∧ (m.command = .rspId ∨ m.command = .rspNoid) := by
  cases h.underWay (hchan ▸ List.mem_cons_self ..) with
  | request _ hpc' => simp [hpc] at hpc'
  | answer hcmd hpc' =>
      cases hpc.symm.trans hpc'
      exact ⟨rfl, hcmd⟩
  | number _ hpc' => simp [hpc] at hpc'
  | report _ hpc' => simp [hpc] at hpc'

/-- In every state of a fault-free run, requests are only in flight to boards that are
idle or in the loop waiting for their child, a board waiting for an answer receives
nothing else, and some board can go on until the master has returned. -/
theorem discovery_never_blocks (net : Network nic V) (master : V) (masterId : ℕ)
    (boot : V → Mem) (hroom : masterId + Fintype.card V ≤ 255)
    (h : Exec (step net) (init nic master masterId boot) tr s)
    (hfree : Meets (fun _ e ↦ e.Faultless) tr) :
    (∀ v j, ∀ m ∈ s.chan v j, m.command = .reqId → ¬ Reported tr v ∧
      ((s.node v).pc = .listen ∨ ∃ i startNode, (s.node v).pc = .waitEnd i startNode)) ∧
    (∀ u i k m q, (s.node u).pc = .waitRsp i → s.chan u k = m :: q →
      k = i ∧ (m.command = .rspId ∨ m.command = .rspNoid)) ∧
    ((∀ ret last, (s.node master).pc ≠ .masterReturned ret last) →
      ∃ e s', e.Faultless ∧ step net s e = some s') := by
  obtain ⟨order, hinv, -⟩ := Inv.exec_of_room h hfree hroom
  refine ⟨?_, fun u i k m q hpc hchan ↦ hinv.answer hpc hchan, hinv.progress⟩
  intro v j m hm hcmd
  have hat := hinv.reqId_for hm hcmd
  refine ⟨fun hrep ↦ ?_, hat⟩
  rw [pc_of_reported h hrep] at hat
  simp at hat

/-- The middle board of a chain of three asks its neighbour, which is idle. -/
theorem discovery_never_blocks_chain :
    ∃ tr s, Exec (step (chain 2)) (init fourIfNic 1 0 fun _ ↦ coldMem) tr s ∧
      (∃ m ∈ s.chan 0 1, m.command = .reqId) ∧ ¬ Reported tr 0 ∧
      ((s.node 0).pc = .listen ∨ ∃ i startNode, (s.node 0).pc = .waitEnd i startNode) := by
  have hstep : step (chain 2) (init fourIfNic 1 0 fun _ ↦ coldMem) (.sent 1) = some _ :=
    next_sent_iff.mpr ⟨0, ⟨.reqId, 0, 0, 0, 0⟩, rfl, rfl⟩
  have hexec := Exec.snoc .nil hstep
  obtain ⟨hreq, -, -⟩ := discovery_never_blocks (chain 2) 1 0 _ (by decide) hexec
    (meets_singleton.mpr trivial)
  exact ⟨_, _, hexec, ⟨⟨.reqId, 0, 0, 0, 0⟩, by decide, rfl⟩,
    hreq 0 1 ⟨.reqId, 0, 0, 0, 0⟩ (by decide) rfl⟩

/-! ## Routes between the master and the boards -/

def out (net : Network nic V) (u : V) (i : ℕ) : Option V := (net.wire u i).map Prod.fst

omit [Fintype V] [DecidableEq V] in
theorem hop_of_mask {mask : V → IfMask} {x y : V} {i j : ℕ} (hwire : net.wire x i = some (y, j))
    (hmask : mask x = axiomCodifyRoutingMask i) : Forwarding.Hop (out net) mask x y := by
  have hbit : ∀ k, (mask x).getLsbD k = true ↔ k = i := fun k ↦ by
    rw [hmask, getLsbD_axiomCodifyRoutingMask (net.lt_eight hwire)]
  refine ⟨⟨i, (hbit i).mpr rfl⟩, fun k hk ↦ ?_⟩
  obtain rfl := (hbit k).mp hk
  simp [out, hwire]

/-- When the master of a fault-free discovery has returned, the masks written on the
way lead from the master to every board and back along simple paths. -/
theorem bootstrap_routes (net : Network nic V) (master : V) (boot : V → Mem)
    (hroom : nic.initMasterNode + Fintype.card V ≤ 255)
    (h : Exec (step net) (init nic master nic.initMasterNode boot) tr s)
    (hfree : Meets (fun _ e ↦ e.Faultless) tr) {ret : AxiomRet} {last : ℕ}
    (hret : (s.node master).pc = .masterReturned ret last) :
    (Function.Injective fun w ↦ (s.node w).mem.nodeId) ∧ ∀ x, x ≠ master →
      (∃ path, Forwarding.Route (out net) (fun w ↦ (s.node w).mem.routing (s.node x).mem.nodeId)
        x master path) ∧
      ∃ path, Forwarding.Route (out net)
        (fun w ↦ (s.node w).mem.routing (s.node master).mem.nodeId) master x path := by
  obtain ⟨order, hinv, -⟩ := Inv.exec_of_room h hfree hroom
  obtain ⟨-, -, i, hi, hexp⟩ := hinv.returned hret
  obtain ⟨hall, -, hids, -⟩ := hexp.complete hi
  have hids' : ∀ v, (s.node v).mem.nodeId = ident nic.initMasterNode order v := hids
  refine ⟨fun u v huv ↦ ?_, fun x hx ↦ ⟨?_, ?_⟩⟩
  · exact ident_inj (hall u) ((hids' u).symm.trans (huv.trans (hids' v)))
  · -- downwards each hop is to a board found later
    rw [hids' x]
    refine Forwarding.exists_route
      (P := fun w ↦ Down net nic.initMasterNode order (mems s.node) x w)
      (fun w ↦ order.length - order.idxOf w) ?_ (hexp.down x (hall x) ?_)
    · intro w hw hwx
      cases hw with
      | here => exact absurd rfl hwx
      | @hop _ c k j hwire hroute hlt hc =>
          refine ⟨c, hc, ?_, hop_of_mask hwire hroute⟩
          have hlen := List.idxOf_lt_length_of_mem (hall c)
          omega
    · rw [hexp.idxOf_master]
      exact Nat.zero_le _
  · -- and upwards to one found earlier
    refine Forwarding.exists_route (P := fun _ ↦ True) (fun w ↦ order.idxOf w) ?_ trivial
    intro w _ hw
    obtain ⟨j, p, k, hwire, -, hlt, hroute⟩ := hexp.up rfl w (hall w) hw
    refine ⟨p, trivial, hlt, hop_of_mask hwire ?_⟩
    rw [hids' master, hexp.ident_master]
    exact hroute

theorem bootstrap_routes_chain :
    ∃ tr s, Exec (step (chain 2))
      (init fourIfNic 0 fourIfNic.initMasterNode fun _ ↦ coldMem) tr s ∧
      ∃ path, Forwarding.Route (out (chain 2))
        (fun w ↦ (s.node w).mem.routing (s.node 2).mem.nodeId) 2 0 path := by
  obtain ⟨tr, s, ret, last, hexec, hfree, hret⟩ :=
    exists_complete_run (chain 2) 0 fourIfNic.initMasterNode (fun _ ↦ coldMem) (by decide)
  obtain ⟨-, hroutes⟩ := bootstrap_routes (chain 2) 0 _ (by decide) hexec hfree hret
  exact ⟨tr, s, hexec, (hroutes 2 (by decide)).1⟩

end AxiomApps.Discovery
