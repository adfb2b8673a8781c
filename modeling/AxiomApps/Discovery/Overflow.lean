import AxiomApps.Discovery.Correctness

/-!
# The 8-bit counter

The counter of ids is a byte that is never compared with a limit, and no error is ever
reported. The ids of a fault-free discovery are sound exactly when they all fit below
the null id.
-/

namespace AxiomApps.Discovery

open FifoNet EventSystem

variable {nic : NicLimits} {V : Type*} [DecidableEq V] {net : Network nic V} {master : V}
variable {masterId : ℕ} {order : List V} {s : State V} {boot : V → Mem}
variable {tr : List (State V × Event V ℕ Msg)}

/-- The master's own id counts as assigned. -/
def Assigned (master : V) (masterId : ℕ) (tr : List (State V × Event V ℕ Msg)) (w : V) (k : ℕ) :
    Prop :=
  w = master ∧ k = masterId ∨ Given tr w k

/-- What is expected of the ids of a run: they are distinct, none is the null id,
`*last_node` is greater than all of them, and the loop over `node_index` comes to an
end for every counter a child returns. -/
structure SoundIds (master : V) (masterId : ℕ) (tr : List (State V × Event V ℕ Msg))
    (s : State V) : Prop where
  distinct : ∀ u v k, Assigned master masterId tr u k → Assigned master masterId tr v k → u = v
  ne_null : ∀ u k, Assigned master masterId tr u k → k ≠ axiomNullNode
  lt_last : ∀ last, (s.node master).pc = .masterReturned .ok last →
    ∀ u k, Assigned master masterId tr u k → k < last
  loop_ends : ∀ u i startNode k m q, (s.node u).pc = .waitEnd i startNode → s.chan u k = m :: q →
    m.command = .endTopology → ∃ fuel r, routeSubtree (axiomCodifyRoutingMask i) m.srcNode fuel
      startNode (s.node u).mem.routing = some r

/-! ## No error is reported -/

theorem endPhase_ne_error (m : Mem) (last : ℕ) :
    (endPhase nic m).pc ≠ .masterReturned .error last := by
  cases hrole : m.role <;> simp [endPhase, hrole]

theorem endTopology_ne_error (i startNode next : ℕ) (m : Mem) (last : ℕ) :
    (endTopology i startNode next m).pc ≠ .masterReturned .error last := by
  unfold endTopology
  split <;> simp

/-- `discover_phase` has no way to return an error, and so the master has none. -/
theorem never_error (h : Exec (step net) (init nic master masterId boot) tr s) :
    ∀ w last, (s.node w).pc ≠ .masterReturned .error last := by
  induction h with
  | nil =>
      intro w last
      by_cases hw : w = master
      · simp [init, hw, axiomMasterNodeDiscovery, discoverPhase]
      · simp [init, hw]
  | snoc _ hs ih =>
      refine next_local (P := fun _ n ↦ ∀ last, n.pc ≠ .masterReturned .error last)
        ?_ ?_ ?_ ?_ ?_ ih hs
      · rintro u ⟨pc, m⟩ hn last
        cases pc with
        | poll i =>
            simp only [program, onInternal]
            split
            · simp
            · exact endPhase_ne_error m last
        | _ => exact hn last
      · rintro u ⟨pc, m⟩ hn last
        cases pc with
        | report iface rest => cases rest <;> simp [program, onSent]
        | masterReturned ret last' => exact hn last
        | _ => simp [program, onSent]
      · rintro u ⟨pc, m⟩ hn last
        cases pc with
        | poll i => exact endPhase_ne_error m last
        | sendSetid i peerIf => exact endPhase_ne_error m last
        | sendStart i => exact endPhase_ne_error m last
        | masterReturned ret last' => exact hn last
        | _ => simp [program, onSendError]
      · rintro u ⟨pc, m⟩ iface msg hn last
        cases pc with
        | listen =>
            simp only [program, onRecv]
            split <;> simp [axiomSlaveNodeDiscovery]
        | waitSetid =>
            simp only [program, onRecv]
            split <;> simp
        | waitStart =>
            simp only [program, onRecv]
            split <;> simp [discoverPhase]
        | waitRsp i =>
            cases hcmd : msg.command <;> simp only [program, onRecv, hcmd] <;>
              first | exact endPhase_ne_error m last | simp
        | waitEnd i startNode =>
            cases hcmd : msg.command <;> simp only [program, onRecv, hcmd] <;>
              first | exact endTopology_ne_error i startNode _ m last | simp
        | masterReturned ret last' => exact hn last
        | _ => simp [program, onRecv]
      · rintro u ⟨pc, m⟩ hn last
        cases pc with
        | waitRsp i => exact endPhase_ne_error m last
        | masterReturned ret last' => exact hn last
        | _ => simp [program, onRecvError]

/-! ## Enough ids -/

variable [Fintype V]

theorem Inv.endTopology_lt (h : Inv net master masterId order s) {u : V} {k : ℕ} {m : Msg}
    {q : List Msg} (hchan : s.chan u k = m :: q) (hcmd : m.command = .endTopology) :
    m.srcNode < 255 := by
  cases h.underWay (hchan ▸ List.mem_cons_self ..) with
  | request hcmd' => simp [hcmd] at hcmd'
  | answer hcmd' => simp [hcmd] at hcmd'
  | number hcmd' => simp [hcmd] at hcmd'
  | report hcmd' => simpa [hcmd] using hcmd'

theorem soundIds_of_room (hroom : masterId + Fintype.card V ≤ 255)
    (h : Exec (step net) (init nic master masterId boot) tr s)
    (hfree : Meets (fun _ e ↦ e.Faultless) tr) : SoundIds master masterId tr s := by
  obtain ⟨order, hinv, hgiven⟩ := Inv.exec_of_room h hfree hroom
  obtain ⟨top, stack, hbase⟩ := hinv.base
  have hassigned : ∀ w k, Assigned master masterId tr w k →
      w ∈ order ∧ k = ident masterId order w := by
    rintro w k (⟨rfl, rfl⟩ | hk)
    · exact ⟨hbase.master_mem, hbase.ident_master.symm⟩
    · exact hgiven w k hk
  refine ⟨?_, ?_, ?_, ?_⟩
  · intro u v k hu hv
    obtain ⟨hmem, hid⟩ := hassigned u k hu
    exact ident_inj hmem (hid.symm.trans (hassigned v k hv).2)
  · rintro u k hu rfl
    obtain ⟨hmem, hid⟩ := hassigned u _ hu
    exact ident_ne_null hbase.room hmem hid.symm
  · intro last hret u k hu
    obtain ⟨-, rfl, i, hi, hexp⟩ := hinv.returned hret
    obtain ⟨hmem, rfl⟩ := hassigned u k hu
    have hlen := List.idxOf_lt_length_of_mem hmem
    have hroom := hbase.room
    rw [ident, Nat.mod_eq_of_lt (by omega)]
    omega
  · intro u i startNode k m q _ hchan hcmd
    have hlt := hinv.endTopology_lt hchan hcmd
    exact ⟨m.srcNode + 2, _, routeSubtree_eq hlt (m.srcNode + 2) startNode _ (by omega)⟩

/-! ## Too many boards -/

theorem exists_null_id (net : Network nic V) (master : V) (masterId : ℕ) (boot : V → Mem)
    (hmaster : masterId < 255) (hroom : 255 < masterId + Fintype.card V) :
    ∃ tr s v, Exec (step net) (init nic master masterId boot) tr s ∧
      Meets (fun _ e ↦ e.Faultless) tr ∧ Given tr v axiomNullNode := by
  obtain ⟨tr, s, order, hexec, hmeets, hinv, hend⟩ :=
    exists_maximal_run net master masterId boot hmaster
  obtain ⟨top, stack, hbase⟩ := hinv.base
  rcases hend with ⟨ret, last, hret⟩ | ⟨e, s₁, he, hs, u, i, peerIf, rfl, hpc, hnull⟩
  · -- a master that has returned has numbered all boards
    obtain ⟨-, -, i, hi, hexp⟩ := hinv.returned hret
    have hlen := hexp.length_eq hi
    have hfits := hbase.room
    omega
  · obtain ⟨-, v, j, hwire, -, hwait, hempty⟩ := hinv.sendSetid hpc
    obtain ⟨k, m, hcall, rfl⟩ := next_sent_iff.mp hs
    obtain ⟨rfl, rfl⟩ : i = k ∧ ⟨.setid, (s.node u).mem.nodeId, axiomNullNode, 0, 0⟩ = m := by
      simpa [program, call, hpc, hnull] using hcall
    have hvu : v ≠ u := (net.ne hwire).symm
    -- the board reads the null id as its number
    have hread : step net ((s.setNode u ((program nic net u).onSent (s.node u))).put (net.wire u i)
        ⟨.setid, (s.node u).mem.nodeId, axiomNullNode, 0, 0⟩)
        (.received v j ⟨.setid, (s.node u).mem.nodeId, axiomNullNode, 0, 0⟩) = some _ :=
      next_received_iff.mpr ⟨fun _ ↦ true, [], by simp [program, call, hvu, hwait], rfl,
        by simp [hwire, Net.put_some_chan, hempty], rfl⟩
    refine ⟨_, _, v, .snoc (.snoc hexec hs) hread, ?_, ?_⟩
    · simp only [meets_append, meets_singleton]
      exact ⟨⟨hmeets.mono fun _ _ h ↦ h.1, trivial⟩, trivial⟩
    · refine ⟨_, j, _, List.mem_append_right _ (List.mem_singleton.mpr rfl), ?_, rfl, rfl⟩
      simp [hvu, hwait]

/-- The ids of fault-free discoveries are sound, or an error is reported, exactly when
all ids are below the null id. -/
theorem soundIds_iff (net : Network nic V) (master : V) (boot : V → Mem)
    (hbyte : masterId < 256) :
    (∀ tr s, Exec (step net) (init nic master masterId boot) tr s →
      Meets (fun _ e ↦ e.Faultless) tr →
        (∃ last, (s.node master).pc = .masterReturned .error last) ∨
          SoundIds master masterId tr s) ↔
      masterId + Fintype.card V ≤ 255 := by
  constructor
  · intro hsound
    by_contra hroom
    by_cases hmaster : masterId < 255
    · obtain ⟨tr, s, v, hexec, hfree, hnull⟩ :=
        exists_null_id net master masterId boot hmaster (not_le.mp hroom)
      rcases hsound tr s hexec hfree with ⟨last, herr⟩ | hids
      · exact never_error hexec master last herr
      · exact hids.ne_null v _ (.inr hnull) rfl
    · -- the master holds the null id itself
      have hexec : Exec (step net) (init nic master masterId boot) [] _ := .nil
      rcases hsound [] _ hexec meets_nil with ⟨last, herr⟩ | hids
      · exact never_error hexec master last herr
      · refine hids.ne_null master masterId (.inl ⟨rfl, rfl⟩) ?_
        rw [axiomNullNode]
        omega
  · intro hroom tr s hexec hfree
    exact .inr (soundIds_of_room hroom hexec hfree)

theorem soundIds_chain :
    0 + Fintype.card (Fin 3) ≤ 255 ∧
      ∀ tr s, Exec (step (chain 2)) (init fourIfNic 0 0 fun _ ↦ coldMem) tr s →
        Meets (fun _ e ↦ e.Faultless) tr →
          (∃ last, (s.node 0).pc = .masterReturned .error last) ∨ SoundIds 0 0 tr s :=
  ⟨by decide, (soundIds_iff (chain 2) 0 (fun _ ↦ coldMem) (by decide)).mpr (by decide)⟩

/-- In a chain of 256 boards one of them is given the null id, and no error is
reported. -/
theorem chain_null_id :
    ∃ tr s v, Exec (step (chain 255)) (init fourIfNic 0 0 fun _ ↦ coldMem) tr s ∧
      Meets (fun _ e ↦ e.Faultless) tr ∧ Given tr v axiomNullNode ∧
      ∀ last, (s.node 0).pc ≠ .masterReturned .error last := by
  obtain ⟨tr, s, v, hexec, hfree, hnull⟩ :=
    exists_null_id (chain 255) 0 0 (fun _ ↦ coldMem) (by decide) (by simp)
  exact ⟨tr, s, v, hexec, hfree, hnull, never_error hexec 0⟩

end AxiomApps.Discovery
