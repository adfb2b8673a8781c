import AxiomApps.Discovery.Correctness

/-!
# The reverse interface

A slave that reports its matrix looks for the interface by which a neighbour leads back, in a
loop that has no answer for a cell without one. As long as no board is given the null id, every
cell of every matrix has a cell that leads back, so that the loop finds it and the reports are
written into the rows they are for.
-/

namespace AxiomApps.Discovery

open FifoNet EventSystem

variable {nic : NicLimits} {V : Type*} [DecidableEq V] {net : Network nic V} {master : V}
variable {masterId : ℕ} {order : List V} {s s' : State V} {e : Event V ℕ Msg} {boot : V → Mem}
variable {tr : List (State V × Event V ℕ Msg)}

/-- Every cell of the matrix names a row of it in which some cell leads back. -/
def ReverseFound (nic : NicLimits) (t : Topology) : Prop :=
  ∀ i < nic.nodesNum, ∀ j < nic.interfacesNum, t i j ≠ axiomNullNode →
    t i j < nic.nodesNum ∧ ∃ w < nic.interfacesNum, t (t i j) w = i

/-- Both cells that a report of a link is written to are inside their rows. -/
def InRows (nic : NicLimits) (m : Msg) : Prop :=
  m.srcNode < nic.nodesNum ∧ m.srcIf < nic.interfacesNum ∧
    m.dstNode < nic.nodesNum ∧ m.dstIf < nic.interfacesNum

/-- The matrices of all boards, but for those that have not begun and hold what they held before;
the reports that are sent; and those that are to be read. -/
structure Reversible (net : Network nic V) (boot : V → Mem) (s : State V) : Prop where
  matrix : ∀ u, (s.node u).pc = .listen ∧ (s.node u).mem = boot u ∨
    ReverseFound nic (s.node u).mem.topology
  sending : ∀ u i m, call nic net u (s.node u) = .send i m → m.command = .topology → InRows nic m
  reading : ∀ u k m, m ∈ s.chan u k → m.command = .topology → InRows nic m

/-! ## Matrices and messages -/

theorem reverseFound_init : ReverseFound nic axiomTopologyInit :=
  fun _ _ _ _ h ↦ absurd rfl h

theorem reverseFound_of_sound {t : Topology} (hroom : masterId + order.length ≤ 255)
    (ht : Sound net masterId order t) (hm : Mutual nic t) : ReverseFound nic t := by
  intro i _ j hj hne
  obtain ⟨x, hx, y, hy, k, hwire, ha, hval⟩ := ht i j hj hne
  refine ⟨?_, hm i j hj hne⟩
  rw [hval]
  exact (ident_lt hroom hy).trans_le nic.le_nodesNum

theorem Truthful.inRows {t : Topology} {m : Msg} (hroom : masterId + order.length ≤ 255)
    (h : Truthful net masterId order t m) : InRows nic m := by
  obtain ⟨-, x, hx, y, hy, j, k, hxy, hyx, hsrc, hdst, -⟩ := h
  refine ⟨?_, net.lt_interfacesNum hxy, ?_, net.lt_interfacesNum hyx⟩
  · rw [hsrc]
    exact (ident_lt hroom hx).trans_le nic.le_nodesNum
  · rw [hdst]
    exact (ident_lt hroom hy).trans_le nic.le_nodesNum

omit [DecidableEq V] in
theorem report_of_call {u : V} {n : Node} {i : ℕ} {m : Msg} (hcall : call nic net u n = .send i m)
    (hcmd : m.command = .topology) : ∃ rest, n.pc = .report i (m :: rest) := by
  obtain ⟨pc, mem⟩ := n
  cases pc with
  | report iface rest =>
      cases rest with
      | nil =>
          simp only [call, Call.send.injEq] at hcall
          obtain ⟨rfl, rfl⟩ := hcall
          cases hcmd
      | cons m' rest =>
          simp only [call, Call.send.injEq] at hcall
          obtain ⟨rfl, rfl⟩ := hcall
          exact ⟨rest, rfl⟩
  | poll k =>
      simp only [call] at hcall
      split at hcall
      · cases hcall
        cases hcmd
      · cases hcall
  | _ =>
      cases hcall
      try cases hcmd

section Listening

variable {u : V} {n : Node} {i : ℕ} {m : Msg}

omit [DecidableEq V] in
theorem onInternal_of_listen (h : (onInternal nic net u n).pc = .listen) :
    onInternal nic net u n = n := by
  obtain ⟨pc, mem⟩ := n
  cases pc with
  | poll i =>
      simp only [onInternal] at h
      split at h
      · cases h
      · cases hrole : mem.role <;> simp [endPhase, hrole] at h
  | _ => rfl

theorem onSent_of_listen (h : (onSent nic n).pc = .listen) : onSent nic n = n := by
  obtain ⟨pc, mem⟩ := n
  cases pc with
  | report iface rest => cases rest <;> cases h
  | _ => first | rfl | cases h

theorem onRecv_of_listen (h : (onRecv nic i m n).pc = .listen) : onRecv nic i m n = n := by
  obtain ⟨pc, mem⟩ := n
  cases pc with
  | listen =>
      simp only [onRecv] at h ⊢
      split at h
      · simp [axiomSlaveNodeDiscovery] at h
      · exact if_neg ‹_›
  | waitSetid =>
      simp only [onRecv] at h
      split at h <;> cases h
  | waitStart =>
      simp only [onRecv] at h
      split at h <;> cases h
  | waitRsp k =>
      cases hcmd : m.command <;> cases hrole : mem.role <;>
        simp [onRecv, hcmd, endPhase, hrole] at h
  | waitEnd k startNode =>
      cases hcmd : m.command <;> simp only [onRecv, hcmd, endTopology] at h
      case endTopology => split at h <;> cases h
      all_goals cases h
  | _ => rfl

end Listening

/-- Without faults no board comes back to the main loop, so one that is there has not begun. -/
theorem mem_of_listen (h : Exec (step net) (init nic master masterId boot) tr s)
    (hfree : Meets (fun _ e ↦ e.Faultless) tr) :
    ∀ u, (s.node u).pc = .listen → (s.node u).mem = boot u := by
  refine h.invariant (I := fun s ↦ ∀ u, (s.node u).pc = .listen → (s.node u).mem = boot u)
    ?_ ?_ hfree
  · intro u hpc
    by_cases hu : u = master
    · simp [init, hu, axiomMasterNodeDiscovery, discoverPhase] at hpc
    · simp [init, hu]
  · intro s e s' hP he hs
    refine next_local_of_faultless (P := fun u n ↦ n.pc = .listen → n.mem = boot u)
      ?_ ?_ ?_ he hP hs
    · intro u n hn hpc
      have hsame := onInternal_of_listen hpc
      exact (congrArg Node.mem hsame).trans (hn ((congrArg Node.pc hsame).symm.trans hpc))
    · intro u n hn hpc
      have hsame := onSent_of_listen hpc
      exact (congrArg Node.mem hsame).trans (hn ((congrArg Node.pc hsame).symm.trans hpc))
    · intro u n i m hn hpc
      have hsame := onRecv_of_listen hpc
      exact (congrArg Node.mem hsame).trans (hn ((congrArg Node.pc hsame).symm.trans hpc))

/-! ## The stages -/

section Stages

variable [Fintype V]

namespace Inv

theorem matrix (h : Inv net master masterId order s) (u : V) :
    (s.node u).pc = .listen ∨ u ∈ order ∨ (s.node u).mem.topology = axiomTopologyInit := by
  by_cases hu : u ∈ order
  · exact .inr (.inl hu)
  have hrest : ∀ {top : V} {stack : Stack V},
      Base net master masterId order top stack (mems s.node) →
        restPc masterId order top stack u = .listen :=
    fun hbase ↦ restPc_of_notMem (fun q hq ↦ hbase.stack_mem hq) hu
  have hne : ∀ {w : V}, w ∈ order → u ≠ w := by
    rintro w hw rfl
    exact hu hw
  cases h with
  | exploring hpc h =>
      exact .inl ((pc_of_pcs_ne hpc (hne h.top_mem)).trans (hrest h.toBase))
  | asked hpc h =>
      exact .inl ((pc_of_pcs_ne hpc (hne h.exploring.top_mem)).trans (hrest h.exploring.toBase))
  | answering hpc h hv =>
      have hat := pc_of_pcs_ne_ne hpc (hne h.exploring.top_mem) (hne (h.exploring.stack_mem hv))
      exact .inl (hat.trans (hrest h.exploring.toBase))
  | answered hpc h =>
      exact .inl ((pc_of_pcs_ne hpc (hne h.exploring.top_mem)).trans (hrest h.exploring.toBase))
  | @greeting node top v stack i j peer hpc h hv hgreet =>
      by_cases huv : u = v
      · subst huv
        exact .inr (.inr hgreet.1)
      · have hat := pc_of_pcs_ne_ne hpc (hne h.exploring.top_mem) huv
        exact .inl (hat.trans (hrest h.exploring.toBase))
  | @greeted node top v stack i j m hpc h hv hgreet =>
      by_cases huv : u = v
      · subst huv
        exact .inr (.inr hgreet.1)
      · have hat := pc_of_pcs_ne_ne hpc huv (hne h.exploring.top_mem)
        exact .inl (hat.trans (hrest h.exploring.toBase))
  | @numbering node top v stack i j hpc h hnext hwire hv hgreet =>
      by_cases huv : u = v
      · subst huv
        exact .inr (.inr hgreet.1)
      · have hat := pc_of_pcs_ne_ne hpc huv (hne h.top_mem)
        exact .inl (hat.trans (hrest h.toBase))
  | @starting node top p st i j a b named started hpc h =>
      have hat := pc_of_pcs_ne_ne hpc (hne h.top_mem) (hne (h.stack_mem (q := p) (by simp)))
      exact .inl (hat.trans (hrest h.toBase))
  | reporting hpc h =>
      exact .inl ((pc_of_pcs_ne hpc (hne h.top_mem)).trans (hrest h.toBase))
  | closing hpc h => exact .inl ((congrFun hpc u).trans (hrest h.toBase))
  | finished hpc h =>
      exact .inl ((pc_of_pcs_ne hpc (hne h.top_mem)).trans (hrest h.toBase))

theorem report_truthful (h : Inv net master masterId order s) {u : V} {iface : ℕ}
    {rest : List Msg} (hpc : (s.node u).pc = .report iface rest) :
    ∃ t, ∀ m ∈ rest, Truthful net masterId order t m := by
  have hu : ¬ (s.node u).pc.Waits := by
    rw [hpc]
    exact id
  have hactive : ∀ {f : V → Pc} {a : V} {x : Pc}, pcs s.node = Function.update f a x →
      (∀ w, (f w).Waits) → x = .report iface rest :=
    fun hpcs hf ↦ (pc_active hpcs hf hu).2.symm.trans hpc
  have hrest := restPc_waits (V := V) masterId order
  cases h with
  | exploring hpcs => cases hactive hpcs (hrest _ _)
  | asked hpcs => cases hactive hpcs (hrest _ _)
  | answering hpcs => cases hactive hpcs (update_waits (hrest _ _) trivial)
  | answered hpcs => cases hactive hpcs (hrest _ _)
  | greeting hpcs => cases hactive hpcs (update_waits (hrest _ _) trivial)
  | greeted hpcs => cases hactive hpcs (update_waits (hrest _ _) trivial)
  | numbering hpcs => cases hactive hpcs (update_waits (hrest _ _) trivial)
  | starting named started hpcs =>
      have hx := hactive hpcs (update_waits (hrest _ _) (by cases named <;> trivial))
      cases started <;> cases hx
  | reporting hpcs h =>
      cases hactive hpcs (hrest _ _)
      exact ⟨_, fun m hm ↦ h.truthful m (List.mem_append_right _ hm)⟩
  | closing hpcs =>
      rw [restPc_cons] at hpcs
      cases hactive hpcs (hrest _ _)
  | finished hpcs => cases hactive hpcs (hrest _ _)

theorem queued_truthful (h : Inv net master masterId order s) {v : V} {j : ℕ} {m : Msg}
    (hm : m ∈ s.chan v j) (hcmd : m.command = .topology) :
    ∃ t, Truthful net masterId order t m := by
  have hother : ∀ {m' : Msg}, m'.command ≠ .topology → m ∉ [m'] := by
    intro m' hne hmem
    exact hne (List.mem_singleton.mp hmem ▸ hcmd)
  cases h with
  | exploring => cases (Net.mem_single_chan hm).2.2
  | asked => exact absurd (Net.mem_single_chan hm).2.2 (hother (by simp))
  | answering => cases (Net.mem_single_chan hm).2.2
  | answered => exact absurd (Net.mem_single_chan hm).2.2 (hother (by simp))
  | greeting => cases (Net.mem_single_chan hm).2.2
  | greeted _ _ _ _ hnoid =>
      exact absurd (Net.mem_single_chan hm).2.2 (hother (by simp [hnoid]))
  | numbering => cases (Net.mem_single_chan hm).2.2
  | starting named started =>
      rcases List.mem_append.mp (Net.mem_single_chan hm).2.2 with hq | hq
      · split at hq
        · cases hq
        · exact absurd hq (hother (by simp))
      · split at hq
        · exact absurd hq (hother (by simp))
        · cases hq
  | reporting _ h =>
      exact ⟨_, h.truthful m (List.mem_append_left _ (Net.mem_single_chan hm).2.2)⟩
  | closing _ h =>
      rcases List.mem_append.mp (Net.mem_single_chan hm).2.2 with hq | hq
      · exact ⟨_, h.truthful m hq⟩
      · exact absurd hq (hother (by simp))
  | finished => cases (Net.mem_single_chan hm).2.2

theorem reversible (h : Inv net master masterId order s)
    (hlisten : ∀ u, (s.node u).pc = .listen → (s.node u).mem = boot u) :
    Reversible net boot s := by
  obtain ⟨top, stack, hbase⟩ := h.base
  refine ⟨?_, ?_, ?_⟩
  · intro u
    rcases h.matrix u with hpc | hu | hinit
    · exact .inl ⟨hpc, hlisten u hpc⟩
    · exact .inr (reverseFound_of_sound hbase.room (hbase.sound u hu) (hbase.mutual_ u hu))
    · rw [hinit]
      exact .inr reverseFound_init
  · intro u i m hcall hcmd
    obtain ⟨rest, hpc⟩ := report_of_call hcall hcmd
    obtain ⟨t, htrue⟩ := h.report_truthful hpc
    exact (htrue m (List.mem_cons_self ..)).inRows hbase.room
  · intro u k m hm hcmd
    obtain ⟨t, htrue⟩ := h.queued_truthful hm hcmd
    exact htrue.inRows hbase.room

end Inv

/-- Whatever the number of boards, the reverse interfaces are found in every fault-free run in
which the null id is not handed out as the id of a board. -/
theorem reverse_interface_found (net : Network nic V) (master : V) (masterId : ℕ)
    (boot : V → Mem) (hmaster : masterId < 255)
    (hexec : Exec (step net) (init nic master masterId boot) tr s)
    (hmeets : Meets (fun s e ↦ e.Faultless ∧ ¬ Wraps s e) tr) : Reversible net boot s := by
  obtain ⟨order, hinv, -⟩ := Inv.exec hexec hmeets hmaster
  exact hinv.reversible (mem_of_listen hexec (hmeets.mono fun _ _ h ↦ h.1))

theorem reverse_interface_found_chain :
    ∃ tr s ret last, 0 < 255 ∧ Exec (step (chain 2)) (init fourIfNic 0 0 fun _ ↦ coldMem) tr s ∧
      Meets (fun s e ↦ e.Faultless ∧ ¬ Wraps s e) tr ∧
      (s.node 0).pc = .masterReturned ret last ∧ Reversible (chain 2) (fun _ ↦ coldMem) s := by
  obtain ⟨tr, s, order, hexec, hmeets, hinv, hend⟩ :=
    exists_maximal_run (chain 2) 0 0 (fun _ ↦ coldMem) (by decide)
  rcases hend with ⟨ret, last, hret⟩ | ⟨e, s', -, -, hwraps⟩
  · exact ⟨tr, s, ret, last, by decide, hexec, hmeets, hret,
      reverse_interface_found (chain 2) 0 0 _ (by decide) hexec hmeets⟩
  · exact absurd hwraps (hinv.not_wraps (by decide))

end Stages

/-! ## The null id in a chain -/

/-- A NIC whose matrices have a row for the null id too. -/
def wideNic : NicLimits :=
  { fourIfNic with nodesNum := 256, le_nodesNum := Nat.le_succ 255, nodesNum_le := le_rfl }

def wideChain (n : ℕ) : Network wideNic (Fin (n + 1)) where
  wire := chainWire n
  ifNumber _ := 2
  ifNumber_le := (chain n).ifNumber_le
  lt_ifNumber := (chain n).lt_ifNumber
  symm := (chain n).symm
  ne := (chain n).ne
  connected := (chain n).connected

/-- What a board on the path of the search passes on to the one that waits for it. -/
theorem Linked.passed_on {P : V → Prop} {c : V} {stack : Stack V}
    (h : Linked net master order c stack)
    (hstep : ∀ p i x j, net.wire p i = some (x, j) → p ∈ order → P x → P p) (hc : P c) :
    P master ∧ ∀ q ∈ stack.nodes, P q := by
  induction stack generalizing c with
  | nil => exact ⟨h ▸ hc, by simp⟩
  | cons f st ih =>
      obtain ⟨p, i⟩ := f
      obtain ⟨⟨j, hwire⟩, hp, -, hrest⟩ := h
      have hPp := hstep p i c j hwire hp hc
      obtain ⟨hmaster, hst⟩ := ih hrest hPp
      exact ⟨hmaster, by simpa using ⟨hPp, hst⟩⟩

section Chain

variable {n masterId : ℕ} {order : List (Fin (n + 1))} {u v : Fin (n + 1)}
variable {stack : Stack (Fin (n + 1))}

theorem mem_of_missing (hnodup : order.Nodup) (hlen : order.length = n) (hv : v ∉ order)
    {w : Fin (n + 1)} (hw : w ≠ v) : w ∈ order := by
  by_contra hmem
  have htwo : (w :: v :: order).Nodup := by
    simp [hw, hmem, hv, hnodup]
  have hcard := htwo.length_le_card
  simp [hlen] at hcard

/-- The one board that is left to be numbered is the last one of the chain. -/
theorem last_of_numbering {i j : ℕ} {mem : Fin (n + 1) → Mem}
    (h : Exploring (wideChain n) 0 masterId order u stack i mem) (hlen : order.length = n)
    (hwire : (wideChain n).wire u i = some (v, j)) (hv : v ∉ order) :
    i = 1 ∧ j = 0 ∧ u.val + 1 = v.val ∧ v.val = n := by
  -- the search cannot have passed the board it has not found
  have hside : ∀ p i x j, (wideChain n).wire p i = some (x, j) → p ∈ order →
      (v < x → v < p) ∧ (x < v → p < v) := by
    intro p i x j hcable hp
    have hpv : p ≠ v := by
      rintro rfl
      exact hv hp
    have hnext := chainWire_eq_some.mp hcable
    omega
  rcases chainWire_eq_some.mp hwire with ⟨-, -, hvu⟩ | ⟨hi, hj, huv⟩
  · have hlt : v < u := by omega
    have hmaster := (h.linked.passed_on (P := (v < ·))
      (fun p i x j hcable hp ↦ (hside p i x j hcable hp).1) hlt).1
    exact absurd hmaster (Fin.not_lt_zero v)
  · refine ⟨hi, hj, huv, ?_⟩
    by_contra hne
    have hvn : v.val + 1 < n + 1 := by omega
    -- the board behind would be done, with all its neighbours found
    have hlt : u < v := by omega
    let x : Fin (n + 1) := ⟨v.val + 1, hvn⟩
    have hx : x ∈ order := mem_of_missing h.nodup hlen hv (by simp [x, Fin.ext_iff])
    have hxu : x ≠ u := by
      intro hxu
      have : v.val + 1 = u.val := congrArg Fin.val hxu
      omega
    have hxs : x ∉ stack.nodes := by
      intro hmem
      have hxv := (h.linked.passed_on (P := (· < v))
        (fun p i x j hcable hp ↦ (hside p i x j hcable hp).2) hlt).2 x hmem
      simp [x, Fin.lt_def] at hxv
    have hback : chainWire n x 0 = some (v, 1) := chainWire_eq_some.mpr (.inl ⟨rfl, rfl, rfl⟩)
    exact hv (h.finished x hx hxu hxs 0 v 1 hback).1

end Chain

/-- What a board that has been given the null id and has one neighbour reports: the cells it
does not know, which hold the null id, pass for cells that lead back to it. -/
theorem topologyReport_null {a : ℕ} (ha : a < 255) :
    ∃ rest, topologyReport wideNic (axiomTopologyInit.link 4 axiomNullNode 0 a 1) =
      ⟨.topology, axiomNullNode, a, 0, 0⟩ :: rest := by
  have hcell : ∀ r c, c < 4 → axiomTopologyInit.link 4 axiomNullNode 0 a 1 r c =
      if r = axiomNullNode ∧ c = 0 then a else axiomNullNode := by
    intro r c hc
    rw [Topology.link_apply (by decide) (by decide) hc]
    split_ifs <;> first | rfl | omega
  have hback : remoteIf wideNic (axiomTopologyInit.link 4 axiomNullNode 0 a 1) axiomNullNode a =
      0 := by
    have hzero := hcell a 0 (by decide)
    rw [if_neg (by rw [axiomNullNode]; omega)] at hzero
    have hrange : List.range wideNic.interfacesNum = [0, 1, 2, 3] := rfl
    rw [remoteIf, hrange, List.find?_cons_of_pos (by simpa using hzero)]
    rfl
  have hmem : ∀ m, m ∈ topologyReport wideNic (axiomTopologyInit.link 4 axiomNullNode 0 a 1) ↔
      m = ⟨.topology, axiomNullNode, a, 0, 0⟩ := by
    intro m
    rw [mem_topologyReport]
    constructor
    · rintro ⟨r, -, c, hc, hne, rfl⟩
      rw [hcell r c hc] at hne ⊢
      split_ifs at hne ⊢ with h
      · obtain ⟨rfl, rfl⟩ := h
        rw [hback]
      · exact absurd rfl hne
    · rintro rfl
      have hvalue := hcell axiomNullNode 0 (by decide)
      rw [if_pos ⟨rfl, rfl⟩] at hvalue
      refine ⟨axiomNullNode, by decide, 0, by decide, ?_, ?_⟩
      · rw [hvalue, axiomNullNode]
        omega
      · rw [hvalue, hback]
  cases hreport : topologyReport wideNic (axiomTopologyInit.link 4 axiomNullNode 0 a 1) with
  | nil => simpa [hreport] using hmem ⟨.topology, axiomNullNode, a, 0, 0⟩
  | cons m rest =>
      obtain rfl := (hmem m).mp (hreport ▸ List.mem_cons_self ..)
      exact ⟨rest, rfl⟩

section Talk

variable {nic : NicLimits} {V : Type*} [DecidableEq V] {net : Network nic V} {s : State V}
variable {u v : V} {n n' : Node} {i j : ℕ} {m : Msg}

theorem handOver (h : Between s u v n n') (hwire : net.wire u i = some (v, j))
    (hcall : call nic net u n = .send i m) (hrecv : call nic net v n' = .recv fun _ ↦ true) :
    ∃ s', Reaches (step net) (fun _ e ↦ e.Faultless) s s' ∧
      Between s' u v (onSent nic n) (onRecv nic j m n') :=
  Between.handOver h (net.ne hwire) hcall hwire hrecv rfl

theorem passOver (h : Between s u v n n') (hne : u ≠ v) (hcall : call nic net v n' = .internal) :
    ∃ s', Reaches (step net) (fun _ e ↦ e.Faultless) s s' ∧
      Between s' u v n (onInternal nic net v n') :=
  Between.internal h hne hcall

end Talk

section Run

variable {n a : ℕ} {u v : Fin (n + 1)} {s : State (Fin (n + 1))} {m m' : Mem}

theorem reaches_poll (h : Between s u v ⟨.sendSetid 1 0, m⟩ ⟨.waitSetid, m'⟩)
    (hwire : (wideChain n).wire u 1 = some (v, 0)) (hnext : m.nextId = axiomNullNode)
    (hfresh : m'.topology = axiomTopologyInit) :
    ∃ s₁ m₁ m₁', Reaches (step (wideChain n)) (fun _ e ↦ e.Faultless) s s₁ ∧
      Between s₁ u v ⟨.waitEnd 1 axiomNullNode, m₁⟩ ⟨.poll 0, m₁'⟩ ∧ m₁.nodeId = m.nodeId ∧
      m₁.topology = m.topology.link 4 m.nodeId 1 axiomNullNode 0 ∧
      m₁'.nodeId = axiomNullNode ∧ m₁'.topology = axiomTopologyInit ∧ m₁'.role = .slave 0 := by
  obtain ⟨role, nodeId, nextId, topology, routing⟩ := m
  obtain rfl : nextId = axiomNullNode := hnext
  -- the number, then the word to begin
  obtain ⟨s₁, hs₁, h₁⟩ := handOver h hwire rfl rfl
  obtain ⟨s₂, hs₂, h₂⟩ := handOver h₁ hwire rfl rfl
  exact ⟨s₂, _, _, hs₁.trans hs₂, h₂, rfl, rfl, rfl, hfresh, rfl⟩

theorem reaches_report (h : Between s u v ⟨.waitEnd 1 axiomNullNode, m⟩ ⟨.poll 0, m'⟩)
    (hwire : (wideChain n).wire u 1 = some (v, 0)) (hlast : v.val = n)
    (hid : m'.nodeId = axiomNullNode) (hfresh : m'.topology = axiomTopologyInit)
    (hrole : m'.role = .slave 0) :
    ∃ s₁ m₁', Reaches (step (wideChain n)) (fun _ e ↦ e.Faultless) s s₁ ∧
      Between s₁ u v ⟨.waitEnd 1 axiomNullNode, m⟩ ⟨.report 0 (topologyReport wideNic
        (axiomTopologyInit.link 4 axiomNullNode 0 m.nodeId 1)), m₁'⟩ := by
  obtain ⟨role, nodeId, nextId, topology, routing⟩ := m'
  obtain ⟨rfl, rfl, rfl⟩ : nodeId = axiomNullNode ∧ topology = axiomTopologyInit ∧
    role = .slave 0 := ⟨hid, hfresh, hrole⟩
  have hne : u ≠ v := (wideChain n).ne hwire
  have hback := (wideChain n).symm hwire
  have hpolls : Polls wideNic (wideChain n) v
      ⟨.slave 0, axiomNullNode, nextId, axiomTopologyInit, routing⟩ 0 :=
    ⟨Nat.zero_lt_two, by simp [hback], rfl⟩
  -- it asks its one neighbour, which waits for its report and answers
  obtain ⟨s₁, hs₁, h₁⟩ := handOver h.symm hback (if_pos hpolls) rfl
  obtain ⟨s₂, hs₂, h₂⟩ := handOver h₁.symm hwire rfl rfl
  -- its second interface has no cable, and there is no third one
  have hnone : (wideChain n).wire v 1 = none := by
    simp [wideChain, chainWire, hlast]
  have hpass : ∀ mem, ¬ Polls wideNic (wideChain n) v mem 1 := by
    rintro mem ⟨-, hwired, -⟩
    simp [hnone] at hwired
  have hend : ∀ mem, ¬ Polls wideNic (wideChain n) v mem 2 :=
    fun mem hpolls ↦ absurd hpolls.1 (lt_irrefl 2)
  obtain ⟨s₃, hs₃, h₃⟩ := passOver h₂ hne (if_neg (hpass _))
  obtain ⟨s₄, hs₄, h₄⟩ := passOver h₃ hne (if_neg (hend _))
  exact ⟨s₄, _, ((hs₁.trans hs₂).trans hs₃).trans hs₄, h₄⟩

/-- Its parent writes the null id over its own link to the board before. -/
theorem reaches_overwrite (h : Between s u v ⟨.sendSetid 1 0, m⟩ ⟨.waitSetid, m'⟩)
    (hwire : (wideChain n).wire u 1 = some (v, 0)) (hlast : v.val = n) (hid : m.nodeId = a)
    (ha : a < 255) (hnext : m.nextId = axiomNullNode) (hfresh : m'.topology = axiomTopologyInit) :
    ∃ s', Reaches (step (wideChain n)) (fun _ e ↦ e.Faultless) s s' ∧
      (s'.node u).pc = .waitEnd 1 axiomNullNode ∧ (s'.node u).mem.topology =
        (m.topology.link 4 a 1 axiomNullNode 0).link 4 axiomNullNode 0 a 0 := by
  obtain ⟨s₁, m₁, m₁', hs₁, h₁, hid₁, htop, hnull, hfresh₁, hrole⟩ :=
    reaches_poll h hwire hnext hfresh
  obtain ⟨s₂, m₂', hs₂, h₂⟩ := reaches_report h₁ hwire hlast hnull hfresh₁ hrole
  rw [hid₁, hid] at h₂
  obtain ⟨rest, hreport⟩ := topologyReport_null ha
  rw [hreport] at h₂
  obtain ⟨s₃, hs₃, h₃⟩ := handOver h₂.symm ((wideChain n).symm hwire) rfl rfl
  refine ⟨s₃, (hs₁.trans hs₂).trans hs₃, ?_, ?_⟩
  · rw [h₃.right]
    rfl
  · rw [h₃.right, ← hid, ← htop]
    rfl

end Run

/-- The row of `u` has lost its link to `x`, and the row of `x` still leads to `u`. -/
theorem not_reverseFound_overwritten {n masterId : ℕ} {order : List (Fin (n + 1))}
    {u x : Fin (n + 1)} {t : Topology} (hroom : masterId + order.length ≤ 255)
    (ht : Sound (wideChain n) masterId order t) (hm : Mutual wideNic t) (hu : u ∈ order)
    (hwire : (wideChain n).wire u 0 = some (x, 1)) (hknows : Knows masterId order t u 0) :
    ¬ ReverseFound wideNic ((t.link 4 (ident masterId order u) 1 axiomNullNode 0).link 4
      axiomNullNode 0 (ident masterId order u) 0) := by
  have hx : x ∈ order := ht.mem_of_knows hu hwire hknows
  have hux : ident masterId order x ≠ ident masterId order u := by
    intro heq
    exact (wideChain n).ne hwire (ident_inj hx heq).symm
  have hcell : ∀ r c, c < 4 → (t.link 4 (ident masterId order u) 1 axiomNullNode 0).link 4
      axiomNullNode 0 (ident masterId order u) 0 r c =
        if r = ident masterId order u ∧ (c = 0 ∨ c = 1) then axiomNullNode
        else if r = axiomNullNode ∧ c = 0 then ident masterId order u else t r c := by
    intro r c hc
    rw [Topology.link_apply (by decide) (by decide) hc,
      Topology.link_apply (by decide) (by decide) hc]
    split_ifs <;> first | rfl | omega
  obtain ⟨w, hw, hback⟩ := hm _ 0 (by decide) hknows
  rw [ht.cell_eq hu hwire hknows] at hback
  generalize (t.link 4 (ident masterId order u) 1 axiomNullNode 0).link 4
    axiomNullNode 0 (ident masterId order u) 0 = t' at hcell ⊢
  intro hfound
  -- the other board's cell still leads to `u`, in whose row nothing leads back
  have hrow : t' (ident masterId order x) w = ident masterId order u := by
    rw [hcell _ w hw, if_neg (fun h ↦ hux h.1), if_neg (fun h ↦ ident_ne_null hroom hx h.1),
      hback]
  obtain ⟨-, w', hw', hlead⟩ := hfound _ ((ident_lt hroom hx).trans (by decide)) w hw
    (hrow ▸ ident_ne_null hroom hu)
  rw [hrow, hcell _ w' hw'] at hlead
  split_ifs at hlead with hnull hother
  · exact ident_ne_null hroom hx hlead.symm
  · exact ident_ne_null hroom hu hother.1
  · obtain ⟨y, -, z, -, k, hwire', hident, -⟩ :=
      ht _ w' hw' (hlead ▸ ident_ne_null hroom hx)
    obtain rfl := ident_inj hu hident
    have hcable := chainWire_eq_some.mp hwire'
    omega

theorem exists_reverse_lost {n masterId : ℕ} (hn : 2 ≤ n) (hfull : masterId + n = 255)
    (boot : Fin (n + 1) → Mem) :
    ∃ tr s u, Exec (step (wideChain n)) (init wideNic 0 masterId boot) tr s ∧
      Meets (fun _ e ↦ e.Faultless) tr ∧ (s.node u).pc ≠ .listen ∧
      ¬ ReverseFound wideNic (s.node u).mem.topology := by
  obtain ⟨tr, s, order, hexec, hmeets, hinv, hend⟩ :=
    exists_maximal_run (wideChain n) 0 masterId boot (by omega)
  rcases hend with ⟨ret, last, hret⟩ | ⟨e, s₁, he, hs, u, i, peerIf, rfl, hpc, hnull⟩
  · -- a master that has returned has numbered all boards
    obtain ⟨top, stack, hbase⟩ := hinv.base
    obtain ⟨-, -, i, hi, hexp⟩ := hinv.returned hret
    have hlen := hexp.length_eq hi
    have hfits := hbase.room
    rw [Fintype.card_fin] at hlen
    omega
  · obtain ⟨v, stack, hexp, hnext, hwire, hv, hwait, hgreet, hempty⟩ :=
      hinv.numbering_of_sendSetid hpc
    have hlen : order.length = n := by
      rw [hnull, axiomNullNode] at hnext
      omega
    obtain ⟨rfl, rfl, huv, hlast⟩ := last_of_numbering hexp hlen hwire hv
    have hid : (s.node u).mem.nodeId = ident masterId order u := hexp.id
    have ha := ident_lt hexp.room hexp.top_mem
    have hbetween : Between s u v ⟨.sendSetid 1 0, (s.node u).mem⟩ ⟨.waitSetid, (s.node v).mem⟩ :=
      ⟨by rw [← hpc], by rw [← hwait], hempty⟩
    obtain ⟨s', ⟨tr', hexec', hfree'⟩, hpc', htop⟩ :=
      reaches_overwrite hbetween hwire hlast hid ha hnull hgreet.1
    refine ⟨tr ++ tr', s', u, hexec.trans hexec', meets_append.mpr
      ⟨hmeets.mono fun _ _ h ↦ h.1, hfree'⟩, by simp [hpc'], ?_⟩
    rw [htop]
    have hpos : u.val - 1 < n + 1 := by omega
    have hdown : chainWire n u 0 = some (⟨u.val - 1, hpos⟩, 1) :=
      chainWire_eq_some.mpr (.inl ⟨rfl, rfl, by simp only; omega⟩)
    exact not_reverseFound_overwritten hexp.room (hexp.sound u hexp.top_mem)
      (hexp.mutual_ u hexp.top_mem) hexp.top_mem hdown (hexp.below 0 (by decide) _ hdown)

/-- In a chain of 256 boards a board that has discovered all its neighbours loses one of them to
the report of the board behind it. -/
theorem chain_reverse_lost :
    ∃ tr s u, Exec (step (wideChain 255)) (init wideNic 0 0 fun _ ↦ coldMem) tr s ∧
      Meets (fun _ e ↦ e.Faultless) tr ∧ (s.node u).pc ≠ .listen ∧
      ¬ ReverseFound wideNic (s.node u).mem.topology ∧
      ¬ Reversible (wideChain 255) (fun _ ↦ coldMem) s := by
  obtain ⟨tr, s, u, hexec, hfree, hpc, hlost⟩ :=
    exists_reverse_lost (n := 255) (by decide) (Nat.zero_add 255) fun _ ↦ coldMem
  refine ⟨tr, s, u, hexec, hfree, hpc, hlost, fun h ↦ ?_⟩
  rcases h.matrix u with ⟨hlisten, -⟩ | hfound
  · exact hpc hlisten
  · exact hlost hfound

end AxiomApps.Discovery
