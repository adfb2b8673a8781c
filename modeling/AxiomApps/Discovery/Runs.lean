import AxiomApps.Discovery.Invariant

/-!
# Fault-free runs

The invariant holds from the initial state on. A faultless step is possible in every
stage until the master has returned, and a weight of the control points and of the
messages in flight drops along every one, so that a run can always be completed.
-/

namespace AxiomApps.Discovery

open FifoNet EventSystem

variable {nic : NicLimits} {V : Type*} [DecidableEq V] {net : Network nic V} {master : V}
variable {masterId : ℕ} {order : List V} {s s' : State V} {e : Event V ℕ Msg} {boot : V → Mem}
variable {tr : List (State V × Event V ℕ Msg)}

section Invariant

variable [Fintype V]

theorem exploring_init (hroom : masterId < 255) :
    Exploring net master masterId [master] master [] 0
      (mems (init nic master masterId boot).node) := by
  have hid : ident masterId [master] master = masterId := by simp [ident]
  have hmaster : ∀ w ∈ [master], w = master := by simp
  have hmem : mems (init nic master masterId boot).node master =
      (axiomMasterNodeDiscovery nic masterId (boot master)).mem := by
    simp [mems, init]
  have htop : (mems (init nic master masterId boot).node master).topology =
      axiomTopologyInit := by
    rw [hmem]
    rfl
  refine
    { nodup := by simp, head := rfl, room := by simpa using hroom, top_mem := by simp
      linked := rfl, sound := ?_, mutual_ := ?_, finished := ?_, ids := ?_
      frames := trivial, up := ?_, role := ?_, id := ?_, paired := ?_, below := ?_, sub := ?_
      down := ?_, dfs := ?_ }
  · intro w hw
    rw [hmaster w hw, htop]
    exact sound_init
  · intro w hw
    rw [hmaster w hw, htop]
    exact mutual_init
  · intro x hx hne
    exact absurd (hmaster x hx) hne
  · intro w hw hne
    exact absurd (hmaster w hw) hne
  · intro _ w hw hne
    exact absurd (hmaster w hw) hne
  · rw [hmem]
    rfl
  · rw [hmem, hid]
    rfl
  · rintro w (rfl | hw)
    · rw [htop]
      exact paired_init
    · simp at hw
  · intro k hk
    omega
  · intro x hx hlt
    rw [hmaster x hx] at hlt
    omega
  · intro x hx _
    rw [hmaster x hx]
    exact .here
  · exact ((portGraph net).preorder_eq_explore master).symm

theorem inv_init (hroom : masterId < 255) :
    Inv net master masterId [master] (init nic master masterId boot) := by
  have hsingle : init nic master masterId boot =
      .single (init nic master masterId boot).node master 0 [] := by
    simp [Net.single, init]
  rw [hsingle]
  refine .exploring ?_ (exploring_init hroom) ?_
  · funext w
    by_cases hw : w = master
    · subst hw
      simp [pcs, init, axiomMasterNodeDiscovery, discoverPhase]
    · simp [pcs, init, restPc, hw]
  · simp [init, axiomMasterNodeDiscovery, discoverPhase]

/-- What a message on its way is, and what the board it is for waits for. -/
inductive UnderWay (masterId : ℕ) (order : List V) (pc : Pc) (v : V) (j : ℕ) (m : Msg) : Prop
  | request (hcmd : m.command = .reqId)
      (hpc : pc = .listen ∨ ∃ i startNode, pc = .waitEnd i startNode)
  | answer (hcmd : m.command = .rspId ∨ m.command = .rspNoid) (hpc : pc = .waitRsp j)
  | number (hcmd : m.command = .setid ∨ m.command = .start)
      (hpc : pc = .waitSetid ∨ pc = .waitStart) (hv : v ∈ order)
      (hid : m.dstNode = ident masterId order v)
  | report (hcmd : m.command = .topology ∨ m.command = .endTopology ∧ m.srcNode < 255)
      (hpc : ∃ i startNode, pc = .waitEnd i startNode)

namespace Inv

theorem base (h : Inv net master masterId order s) :
    ∃ top stack, Base net master masterId order top stack (mems s.node) := by
  cases h with
  | exploring _ h => exact ⟨_, _, h.toBase⟩
  | asked _ h => exact ⟨_, _, h.exploring.toBase⟩
  | answering _ h => exact ⟨_, _, h.exploring.toBase⟩
  | answered _ h => exact ⟨_, _, h.exploring.toBase⟩
  | greeting _ h => exact ⟨_, _, h.exploring.toBase⟩
  | greeted _ h => exact ⟨_, _, h.exploring.toBase⟩
  | numbering _ h => exact ⟨_, _, h.toBase⟩
  | starting _ _ _ h => exact ⟨_, _, h.toBase⟩
  | reporting _ h => exact ⟨_, _, h.toBase⟩
  | closing _ h => exact ⟨_, _, h.toBase⟩
  | finished _ h => exact ⟨_, _, h.toBase⟩

/-- The stage in which a board is about to hand out a number. -/
theorem numbering_of_sendSetid (h : Inv net master masterId order s) {u : V} {i peerIf : ℕ}
    (hpc : (s.node u).pc = .sendSetid i peerIf) :
    ∃ v stack, Exploring net master masterId order u stack i (mems s.node) ∧
      (s.node u).mem.nextId = masterId + order.length ∧ net.wire u i = some (v, peerIf) ∧
      v ∉ order ∧ (s.node v).pc = .waitSetid ∧ Greeted nic masterId peerIf (s.node v).mem ∧
      ∀ w k, s.chan w k = [] := by
  have hu : ¬ (s.node u).pc.Waits := by
    rw [hpc]
    exact id
  have hactive : ∀ {f : V → Pc} {a : V} {x : Pc}, pcs s.node = Function.update f a x →
      (∀ w, (f w).Waits) → u = a ∧ x = .sendSetid i peerIf := by
    intro f a x hpcs hf
    obtain ⟨rfl, hx⟩ := pc_active hpcs hf hu
    exact ⟨rfl, hx.symm.trans hpc⟩
  have hrest := restPc_waits (V := V) masterId order
  cases h with
  | exploring hpcs => cases (hactive hpcs (hrest _ _)).2
  | asked hpcs => cases (hactive hpcs (hrest _ _)).2
  | answering hpcs => cases (hactive hpcs (update_waits (hrest _ _) trivial)).2
  | answered hpcs => cases (hactive hpcs (hrest _ _)).2
  | greeting hpcs => cases (hactive hpcs (update_waits (hrest _ _) trivial)).2
  | greeted hpcs => cases (hactive hpcs (update_waits (hrest _ _) trivial)).2
  | @numbering node top v stack i' j hpcs h hnext hwire hv hgreet =>
      obtain ⟨rfl, heq⟩ := hactive hpcs (update_waits (hrest _ _) trivial)
      cases heq
      refine ⟨v, stack, h, hnext, hwire, hv, ?_, hgreet, by simp [Net.single]⟩
      exact (pc_of_pcs_ne hpcs (net.ne hwire).symm).trans (Function.update_self _ _ _)
  | starting named started hpcs =>
      have hx := (hactive hpcs (update_waits (hrest _ _) (by cases named <;> trivial))).2
      cases started <;> cases hx
  | reporting hpcs => cases (hactive hpcs (hrest _ _)).2
  | @closing node top p st i' next queue hpcs =>
      rw [restPc_cons] at hpcs
      cases (hactive hpcs (hrest _ _)).2
  | finished hpcs => cases (hactive hpcs (hrest _ _)).2

/-- A board about to hand out a number hands out the next one, to a board that has
none and waits for it. -/
theorem sendSetid (h : Inv net master masterId order s) {u : V} {i peerIf : ℕ}
    (hpc : (s.node u).pc = .sendSetid i peerIf) :
    (s.node u).mem.nextId = masterId + order.length ∧ ∃ v j, net.wire u i = some (v, j) ∧
      v ∉ order ∧ (s.node v).pc = .waitSetid ∧ ∀ w k, s.chan w k = [] := by
  obtain ⟨v, stack, -, hnext, hwire, hv, hwait, -, hempty⟩ := h.numbering_of_sendSetid hpc
  exact ⟨hnext, v, peerIf, hwire, hv, hwait, hempty⟩

theorem not_wraps (h : Inv net master masterId order s)
    (hroom : masterId + Fintype.card V ≤ 255) : ¬ Wraps s e := by
  rintro ⟨u, i, peerIf, -, hpc, hnull⟩
  obtain ⟨hnext, v, j, -, hv, -⟩ := h.sendSetid hpc
  obtain ⟨top, stack, hbase⟩ := h.base
  have hlen := (List.nodup_cons.mpr ⟨hv, hbase.nodup⟩).length_le_card
  rw [hnext, axiomNullNode] at hnull
  rw [List.length_cons] at hlen
  omega

theorem underWay (h : Inv net master masterId order s) {v : V} {j : ℕ} {m : Msg}
    (hm : m ∈ s.chan v j) : UnderWay masterId order (s.node v).pc v j m := by
  cases h with
  | exploring => cases (Net.mem_single_chan hm).2.2
  | @asked node top v stack i j hpc h hv =>
      obtain ⟨rfl, rfl, hq⟩ := Net.mem_single_chan hm
      obtain rfl := List.mem_singleton.mp hq
      have hat := pc_of_pcs_ne hpc (net.ne h.wire).symm
      refine .request rfl (hv.imp (fun hv ↦ ?_) fun hv ↦ ?_)
      · exact hat.trans (restPc_of_notMem (fun q hq ↦ h.exploring.stack_mem hq) hv)
      · obtain ⟨i', startNode, hrest⟩ : ∃ i' startNode,
          restPc masterId order top stack _ = .waitEnd i' startNode := restPc_of_mem_stack hv
        exact ⟨i', startNode, hat.trans hrest⟩
  | answering => cases (Net.mem_single_chan hm).2.2
  | answered hpc =>
      obtain ⟨rfl, rfl, hq⟩ := Net.mem_single_chan hm
      obtain rfl := List.mem_singleton.mp hq
      exact .answer (.inl rfl) (pc_of_pcs hpc)
  | greeting => cases (Net.mem_single_chan hm).2.2
  | greeted hpc _ _ _ hnoid =>
      obtain ⟨rfl, rfl, hq⟩ := Net.mem_single_chan hm
      obtain rfl := List.mem_singleton.mp hq
      exact .answer (.inr hnoid) (pc_of_pcs hpc)
  | numbering => cases (Net.mem_single_chan hm).2.2
  | @starting node top p st i' j' a b named started hpc h hwire =>
      have hwaits : (node top).pc = .waitSetid ∨ (node top).pc = .waitStart := by
        have hat := pc_of_pcs_ne hpc (net.ne hwire).symm
        rw [Function.update_self] at hat
        cases named
        · exact .inl hat
        · exact .inr hat
      obtain ⟨rfl, rfl, hq⟩ := Net.mem_single_chan hm
      rcases List.mem_append.mp hq with hq | hq
      · split at hq
        · cases hq
        · obtain rfl := List.mem_singleton.mp hq
          exact .number (.inl rfl) hwaits h.top_mem rfl
      · split at hq
        · obtain rfl := List.mem_singleton.mp hq
          exact .number (.inr rfl) hwaits h.top_mem rfl
        · cases hq
  | reporting hpc h =>
      obtain ⟨rfl, rfl, hq⟩ := Net.mem_single_chan hm
      exact .report (.inl (h.truthful m (List.mem_append_left _ hq)).1)
        ⟨_, _, parent_pc h.parent_ne hpc⟩
  | closing hpc h hnext =>
      obtain ⟨rfl, rfl, hq⟩ := Net.mem_single_chan hm
      rw [restPc_cons] at hpc
      refine .report ?_ ⟨_, _, pc_of_pcs hpc⟩
      rcases List.mem_append.mp hq with hq | hq
      · exact .inl (h.truthful m hq).1
      · obtain rfl := List.mem_singleton.mp hq
        have hroom := h.room
        refine .inr ⟨rfl, ?_⟩
        dsimp only
        omega
  | finished => cases (Net.mem_single_chan hm).2.2

/-- A number on its way is the one the invariant gives to the board it is for. -/
theorem setid_eq (h : Inv net master masterId order s) {w : V} {i : ℕ} {m : Msg} {q : List Msg}
    (hchan : s.chan w i = m :: q) (hcmd : m.command = .setid) :
    w ∈ order ∧ m.dstNode = ident masterId order w := by
  cases h.underWay (hchan ▸ List.mem_cons_self ..) with
  | request hcmd' => simp [hcmd] at hcmd'
  | answer hcmd' => simp [hcmd] at hcmd'
  | number _ _ hv hid => exact ⟨hv, hid⟩
  | report hcmd' => simp [hcmd] at hcmd'

theorem exec (h : Exec (Discovery.step net) (init nic master masterId boot) tr s)
    (htr : Meets (fun s e ↦ e.Faultless ∧ ¬ Wraps s e) tr) (hroom : masterId < 255) :
    ∃ order, Inv net master masterId order s ∧
      ∀ w k, Given tr w k → w ∈ order ∧ k = ident masterId order w := by
  refine h.trace_invariant (I := fun tr s ↦ ∃ order, Inv net master masterId order s ∧
    ∀ w k, Given tr w k → w ∈ order ∧ k = ident masterId order w) ?_ ?_ htr
  · refine ⟨[master], inv_init hroom, ?_⟩
    rintro w k ⟨_, _, _, hmem, _⟩
    cases hmem
  · rintro tr s e s' ⟨order, hinv, hgiven⟩ ⟨he, hwraps⟩ hs
    obtain ⟨order', ⟨new, rfl⟩, hinv'⟩ := hinv.step he hs hwraps
    refine ⟨order ++ new, hinv', ?_⟩
    intro w k hwk
    -- a board keeps its number when others are found
    have hkeep : w ∈ order ∧ k = ident masterId order w := by
      rcases given_snoc hwk with hold | ⟨i, m, rfl, -, hcmd, rfl⟩
      · exact hgiven w k hold
      · obtain ⟨_, _, _, _, hchan, _⟩ := next_received_iff.mp hs
        exact hinv.setid_eq hchan hcmd
    refine ⟨List.mem_append_left _ hkeep.1, hkeep.2.trans ?_⟩
    simp only [ident, List.idxOf_append_of_mem hkeep.1]

theorem exec_of_room (h : Exec (Discovery.step net) (init nic master masterId boot) tr s)
    (htr : Meets (fun _ e ↦ e.Faultless) tr) (hroom : masterId + Fintype.card V ≤ 255) :
    ∃ order, Inv net master masterId order s ∧
      ∀ w k, Given tr w k → w ∈ order ∧ k = ident masterId order w := by
  have hcard : 0 < Fintype.card V := Fintype.card_pos_iff.mpr ⟨master⟩
  have hmeets : Meets (fun s e ↦ e.Faultless ∧ ¬ Wraps s e) tr := by
    induction h with
    | nil => exact meets_nil
    | snoc h _ ih =>
        obtain ⟨htr, he⟩ := meets_append.mp htr
        refine meets_append.mpr ⟨ih htr, meets_singleton.mpr ⟨meets_singleton.mp he, ?_⟩⟩
        obtain ⟨order, hinv, -⟩ := exec h (ih htr) (by omega)
        exact hinv.not_wraps hroom
  exact exec h hmeets (by omega)

end Inv

end Invariant

/-! ## Progress -/

theorem step_received {node : V → Node} {b : V} {k : ℕ} {m : Msg} {q : List Msg}
    (hcall : call nic net b (node b) = .recv fun _ ↦ true) :
    ∃ e s', e.Faultless ∧ step net (.single node b k (m :: q)) e = some s' := by
  have hsome : (step net (.single node b k (m :: q)) (.received b k m)).isSome :=
    next_single_received hcall rfl
  obtain ⟨s', hs'⟩ := Option.isSome_iff_exists.mp hsome
  exact ⟨.received b k m, s', trivial, hs'⟩

theorem step_sent {a : V} {i : ℕ} {m : Msg} (hcall : call nic net a (s.node a) = .send i m) :
    ∃ e s', e.Faultless ∧ step net s e = some s' :=
  ⟨.sent a, _, trivial, next_sent_iff.mpr ⟨i, m, hcall, rfl⟩⟩

/-- Until the master has returned, some board can take a step. -/
theorem Inv.progress [Fintype V] (h : Inv net master masterId order s)
    (hret : ∀ ret last, (s.node master).pc ≠ .masterReturned ret last) :
    ∃ e s', e.Faultless ∧ Discovery.step net s e = some s' := by
  cases h with
  | @exploring node top stack i hpc h =>
      have hat := pc_of_pcs hpc
      by_cases hpolls : Polls nic net top (node top).mem i
      · apply step_sent (a := top)
        simp only [call, Net.single_node, hat, hpolls, if_true]
        rfl
      · refine ⟨.internal top, _, trivial, next_internal_iff.mpr ⟨?_, rfl⟩⟩
        simp only [program, call, Net.single_node, hat, hpolls, if_false]
  | @asked node top v stack i j hpc h hv =>
      have hat := pc_of_pcs_ne hpc (net.ne h.wire).symm
      rcases hv with hv | hv
      · rw [restPc_of_notMem (fun q hq ↦ h.exploring.stack_mem hq) hv] at hat
        exact step_received (by simp [call, hat])
      · obtain ⟨i', startNode, hrest⟩ : ∃ i' startNode,
            restPc masterId order top stack v = .waitEnd i' startNode := restPc_of_mem_stack hv
        exact step_received (by simp [call, hat, hrest])
  | @answering node top v stack i j i' startNode peer hpc =>
      apply step_sent (a := v)
      simp only [call, Net.single_node, pc_of_pcs hpc]
      rfl
  | answered hpc =>
      exact step_received (by simp [call, pc_of_pcs hpc])
  | @greeting node top v stack i j peer hpc =>
      apply step_sent (a := v)
      simp only [call, Net.single_node, pc_of_pcs hpc]
      rfl
  | greeted hpc =>
      exact step_received (by simp [call, pc_of_pcs hpc])
  | @numbering node top v stack i j hpc =>
      apply step_sent (a := top)
      simp only [call, Net.single_node, pc_of_pcs hpc]
      rfl
  | @starting node top p st i j a b named started hpc h hwire =>
      cases started with
      | false =>
          apply step_sent (a := p)
          simp only [call, Net.single_node, pc_of_pcs hpc]
          rfl
      | true =>
          have hat := pc_of_pcs_ne hpc (net.ne hwire).symm
          rw [Function.update_self] at hat
          cases named with
          | false => exact step_received (by simp [call, hat])
          | true => exact step_received (by simp [call, hat])
  | @reporting node top p st i j queue rest hpc =>
      cases rest with
      | nil =>
          apply step_sent (a := top)
          simp only [call, Net.single_node, pc_of_pcs hpc]
          rfl
      | cons m rest =>
          apply step_sent (a := top)
          simp only [call, Net.single_node, pc_of_pcs hpc]
          rfl
  | @closing node top p st i next queue hpc =>
      rw [restPc_cons] at hpc
      cases queue with
      | nil => exact step_received (by simp [call, pc_of_pcs hpc])
      | cons m queue =>
          exact step_received (by simp [call, pc_of_pcs hpc])
  | finished hpc => exact absurd (pc_of_pcs hpc) (hret _ _)

/-! ## Termination -/

/-- An upper bound on what is left to do: `left i` for a board that has its interfaces
from `i` on to look at. -/
def Pc.rank (report ifNumber : ℕ) (pc : Pc) : ℕ :=
  let left i := 11 * (ifNumber - i) + 5 * report + 3
  match pc with
  | .listen => left 0 + 5
  | .sendRspNoid _ _ => left 0 + 4
  | .waitSetid => left 0 + 2
  | .waitStart => left 0 + 1
  | .poll i => left i
  | .waitRsp i => left (i + 1) + 6
  | .sendSetid i _ => left (i + 1) + 5
  | .sendStart i => left (i + 1) + 3
  | .waitEnd i _ => left (i + 1) + 1
  | .sendRspId i _ _ _ => left (i + 1) + 3
  | .report _ rest => 5 * rest.length + 2
  | .sendFirstRspId _ _ => 2
  | .exited | .spin | .returned | .masterReturned _ _ => 0

/-- A request is answered, so it weighs more than other messages. -/
def Msg.rank (m : Msg) : ℕ := if m.command = .reqId then 4 else 1

theorem length_topologyReport_le (nic : NicLimits) (t : Topology) :
    (topologyReport nic t).length ≤ nic.nodesNum * nic.interfacesNum := by
  rw [topologyReport, List.length_flatMap]
  calc
    _ ≤ ((List.range nic.nodesNum).map fun _ ↦ nic.interfacesNum).sum := by
      refine List.sum_le_sum fun i _ ↦ ?_
      exact (List.length_filterMap_le _ _).trans_eq List.length_range
    _ = _ := by simp

theorem rank_endPhase_lt (nic : NicLimits) (m : Mem) (k : ℕ) :
    (endPhase nic m).pc.rank (nic.nodesNum * nic.interfacesNum) k <
      5 * (nic.nodesNum * nic.interfacesNum) + 3 := by
  have hlen := length_topologyReport_le nic m.topology
  cases hrole : m.role with
  | master =>
      simp only [endPhase, hrole, Pc.rank]
      omega
  | slave iface =>
      simp only [endPhase, hrole, Pc.rank]
      omega

section Weight

variable (net)

def nodeRank (u : V) (n : Node) : ℕ :=
  n.pc.rank (nic.nodesNum * nic.interfacesNum) (net.ifNumber u)

variable {net}

omit [DecidableEq V] in
theorem nodeRank_onInternal (u : V) (n : Node) (hcall : call nic net u n = .internal) :
    nodeRank net u (onInternal nic net u n) < nodeRank net u n := by
  obtain ⟨pc, m⟩ := n
  cases pc with
  | poll i =>
      by_cases hi : i < net.ifNumber u
      · simp only [onInternal, hi, if_true, nodeRank, Pc.rank]
        omega
      · have hend := rank_endPhase_lt nic m (net.ifNumber u)
        simp only [onInternal, hi, if_false, nodeRank]
        refine hend.trans_le ?_
        simp only [Pc.rank]
        omega
  | report iface rest => cases rest <;> simp [call] at hcall
  | _ => simp [call] at hcall

omit [DecidableEq V] in
theorem nodeRank_onSent (u : V) (n : Node) (i : ℕ) (msg : Msg)
    (hcall : call nic net u n = .send i msg) :
    nodeRank net u (onSent nic n) + msg.rank < nodeRank net u n := by
  obtain ⟨pc, m⟩ := n
  cases pc with
  | poll k =>
      have hpolls : Polls nic net u m k := by
        by_contra hp
        simp [call, hp] at hcall
      have hk := hpolls.1
      obtain ⟨rfl, rfl⟩ : k = i ∧ _ = msg := by simpa [call, hpolls] using hcall
      simp only [onSent, nodeRank, Pc.rank, Msg.rank, if_true]
      omega
  | report iface rest =>
      have hmsg : msg.rank ≤ 4 := by
        unfold Msg.rank
        split <;> omega
      cases rest with
      | nil =>
          obtain ⟨-, rfl⟩ : iface = i ∧ _ = msg := by simpa [call] using hcall
          simp [onSent, nodeRank, Pc.rank, Msg.rank]
      | cons m' rest =>
          simp only [onSent, nodeRank, Pc.rank, List.length_cons]
          omega
  | sendFirstRspId | sendRspNoid | sendSetid | sendStart | sendRspId =>
      obtain ⟨-, rfl⟩ : _ = i ∧ _ = msg := by simpa [call] using hcall
      simp [onSent, nodeRank, Pc.rank, Msg.rank]
  | _ => simp [call] at hcall

omit [DecidableEq V] in
theorem nodeRank_onRecv (u : V) (n : Node) (ports : ℕ → Bool) (i : ℕ) (msg : Msg)
    (hcall : call nic net u n = .recv ports) :
    nodeRank net u (onRecv nic i msg n) < nodeRank net u n + msg.rank := by
  obtain ⟨pc, m⟩ := n
  have hpos : 0 < msg.rank := by
    unfold Msg.rank
    split <;> omega
  cases pc with
  | listen =>
      by_cases hcmd : msg.command = .reqId
      · simp only [onRecv, hcmd, if_true, axiomSlaveNodeDiscovery, nodeRank, ne_eq,
          not_true_eq_false, if_false, Pc.rank]
        omega
      · simp only [onRecv, hcmd, if_false, nodeRank]
        omega
  | waitSetid =>
      by_cases hcmd : msg.command = .setid
      · simp only [onRecv, hcmd, if_true, nodeRank, Pc.rank]
        omega
      · simp only [onRecv, hcmd, if_false, nodeRank]
        omega
  | waitStart =>
      by_cases hcmd : msg.command = .start
      · simp only [onRecv, hcmd, if_true, discoverPhase, nodeRank, Pc.rank]
        omega
      · simp only [onRecv, hcmd, if_false, nodeRank]
        omega
  | waitRsp k =>
      have hend := rank_endPhase_lt nic m (net.ifNumber u)
      cases hcmd : msg.command <;> simp only [onRecv, hcmd, nodeRank] <;>
        simp only [Pc.rank] at hend ⊢ <;> omega
  | waitEnd k startNode =>
      cases hcmd : msg.command with
      | reqId =>
          simp only [onRecv, hcmd, nodeRank, Pc.rank, Msg.rank, if_true]
          omega
      | endTopology =>
          simp only [onRecv, hcmd, endTopology, nodeRank]
          split <;> simp only [Pc.rank] <;> omega
      | _ =>
          simp only [onRecv, hcmd, nodeRank, Pc.rank]
          omega
  | report iface rest => cases rest <;> simp [call] at hcall
  | poll k =>
      simp only [call] at hcall
      split at hcall <;> cases hcall
  | _ => simp [call] at hcall

variable [Fintype V]

def weight (net : Network nic V) (s : State V) : ℕ :=
  s.weight (nodeRank net) Msg.rank (Finset.range nic.interfacesNum)

theorem step_weight_lt (he : e.Faultless)
    (hport : ∀ u i m, e = .received u i m → i < nic.interfacesNum)
    (hs : step net s e = some s') : weight net s' < weight net s :=
  next_weight_lt nodeRank_onInternal nodeRank_onSent nodeRank_onRecv he
    (fun u i m h ↦ Finset.mem_range.mpr (hport u i m h)) hs

end Weight

theorem exec_wired (h : Exec (step net) (init nic master masterId boot) tr s) :
    ∀ v j, s.chan v j ≠ [] → ∃ u i, net.wire u i = some (v, j) := by
  induction h with
  | nil => exact fun v j hne ↦ absurd rfl hne
  | snoc _ hs ih => exact next_wired ih hs

/-- Some fault-free run goes on until the master has returned or the null id is the
next number to be handed out. -/
theorem exists_maximal_run [Fintype V] (net : Network nic V) (master : V) (masterId : ℕ)
    (boot : V → Mem) (hroom : masterId < 255) :
    ∃ tr s order, Exec (step net) (init nic master masterId boot) tr s ∧
      Meets (fun s e ↦ e.Faultless ∧ ¬ Wraps s e) tr ∧ Inv net master masterId order s ∧
      ((∃ ret last, (s.node master).pc = .masterReturned ret last) ∨
        ∃ e s', e.Faultless ∧ step net s e = some s' ∧ Wraps s e) := by
  have hdec : ∀ s e s', (e.Faultless ∧ ¬ Wraps s e) ∧
      (∀ u i m, e = .received u i m → i < nic.interfacesNum) → step net s e = some s' →
        weight net s' < weight net s :=
    fun _ _ _ hC hs ↦ step_weight_lt hC.1.1 hC.2 hs
  obtain ⟨tr, s, hexec, hmeets, hmax⟩ :=
    Exec.exists_maximal (weight net) hdec (init nic master masterId boot)
  have htr := hmeets.mono fun _ _ h ↦ h.1
  obtain ⟨order, hinv, -⟩ := Inv.exec hexec htr hroom
  refine ⟨tr, s, order, hexec, htr, hinv, ?_⟩
  by_cases hret : ∃ ret last, (s.node master).pc = .masterReturned ret last
  · exact .inl hret
  · push Not at hret
    obtain ⟨e, s', he, hs⟩ := hinv.progress hret
    have hport : ∀ u i m, e = .received u i m → i < nic.interfacesNum := by
      rintro u i m rfl
      obtain ⟨_, _, _, _, hchan, _⟩ := next_received_iff.mp hs
      obtain ⟨v, j, hwire⟩ := exec_wired hexec u i (by simp [hchan])
      exact net.lt_interfacesNum (net.symm hwire)
    refine .inr ⟨e, s', he, hs, ?_⟩
    by_contra hwraps
    exact hmax e s' ⟨⟨he, hwraps⟩, hport⟩ hs

/-- With ids for all boards some fault-free run ends with the master's return. -/
theorem exists_complete_run [Fintype V] (net : Network nic V) (master : V) (masterId : ℕ)
    (boot : V → Mem) (hroom : masterId + Fintype.card V ≤ 255) :
    ∃ tr s ret last, Exec (step net) (init nic master masterId boot) tr s ∧
      Meets (fun _ e ↦ e.Faultless) tr ∧ (s.node master).pc = .masterReturned ret last := by
  have hcard : 0 < Fintype.card V := Fintype.card_pos_iff.mpr ⟨master⟩
  obtain ⟨tr, s, order, hexec, htr, hinv, hend⟩ :=
    exists_maximal_run net master masterId boot (by omega)
  rcases hend with ⟨ret, last, hret⟩ | ⟨e, s', -, -, hwraps⟩
  · exact ⟨tr, s, ret, last, hexec, htr.mono fun _ _ h ↦ h.1, hret⟩
  · exact absurd hwraps (hinv.not_wraps hroom)

end AxiomApps.Discovery
