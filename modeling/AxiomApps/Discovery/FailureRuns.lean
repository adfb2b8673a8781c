import AxiomApps.Discovery.Failures

/-!
# The search with failing calls

While the counter of ids is around, the search is at a board, enters the board it has
just numbered, or comes back from a board that is done. A failed call at the board the
search is at ends its loop over the interfaces; one at the board it enters, or at one
that reports, loses the counter.
-/

namespace AxiomApps.Discovery.Faulty

open FifoNet EventSystem

variable {nic : NicLimits} {V : Type*} [DecidableEq V]

/-- What a board that reports has still to send. -/
def unsent (n : Node) : List Msg :=
  match n.pc with
  | .report _ rest => rest ++ [⟨.endTopology, n.mem.nextId, 0, 0, 0⟩]
  | _ => []

section Stages

variable (net : Network nic V) (master : V) (masterId : ℕ)

/-- The control points of the board the search is at, with what the counter says
there. -/
def AtBoard (order : List V) (top : V) (n : Node) : Prop :=
  match n.pc with
  | .poll _ | .waitRsp _ => n.mem.nextId + 1 = masterId + order.length
  | .sendSetid i peerIf => n.mem.nextId = masterId + order.length ∧ n.mem.nextId < 255 ∧
      ∃ x ∉ order, net.wire top i = some (x, peerIf)
  | _ => False

/-- The board has been numbered, but may not have read its number. -/
def Entered (order : List V) (x : V) (n : Node) : Prop :=
  Idle n.pc ∨ n.pc = .waitStart ∧ n.mem.nodeId = ident masterId order x

/-- The search is at `top`. -/
structure Searching (order : List V) (top : V) (stack : Stack V) (s : State V) : Prop
    extends Ground net master masterId order top stack s where
  atBoard : AtBoard net masterId order top (s.node top)
  role : HasRole net (s.node top).mem.role top stack
  keeper : Keeper net masterId order top (s.node top).mem
  asked : ∀ j, due net s top j ≤ if (s.node top).pc = .waitRsp j then 1 else 0
  noid : ∀ i, ∀ m ∈ s.chan top i, m.command = .rspNoid →
    ∀ x j, net.wire top i = some (x, j) → x ∉ order
  covered : Covered net master masterId order s (top :: stack.nodes) []

/-- `p` has numbered `top`, and has started it or is about to. -/
structure Entering (order : List V) (top p : V) (i : ℕ) (st : Stack V) (s : State V) : Prop
    extends Ground net master masterId order top ((p, i) :: st) s where
  entered : Entered masterId order top (s.node top)
  calm : ∀ j, due net s top j = 0
  counter : ((s.node p).pc = .sendStart i ∧ (s.node p).mem.nextId + 1 = masterId + order.length) ∨
    ∃ j, net.wire p i = some (top, j) ∧
      ∃ m ∈ s.chan top j, m.command = .start ∧ m.dstNode + 1 = masterId + order.length
  covered : Covered net master masterId order s (p :: st.nodes) []

/-- `top` is done and reports to `p`; the end of the report has not been read. -/
structure Returning (order : List V) (top p : V) (i : ℕ) (st : Stack V) (s : State V) : Prop
    extends Ground net master masterId order top ((p, i) :: st) s where
  away : (s.node top).pc = .returned ∨
    ∃ j rest, net.wire p i = some (top, j) ∧ (s.node top).pc = .report j rest
  reports : ∀ m ∈ unsent (s.node top), m.command = .topology → Reports net masterId order m
  report : ∃ l c, s.chan p i ++ unsent (s.node top) = l ++ [c] ∧ c.command = .endTopology ∧
    c.srcNode + 1 = masterId + order.length ∧
      Covered net master masterId order s (p :: st.nodes) l

/-- The master has returned successfully. -/
structure Finished (order : List V) (s : State V) : Prop where
  nodup : order.Nodup
  head : order.head? = some master
  room : masterId + order.length ≤ 255
  pc : (s.node master).pc = .masterReturned .ok (masterId + order.length)
  sound : Sound net masterId order (s.node master).mem.topology
  mutual_ : Mutual nic (s.node master).mem.topology
  covered : Covered net master masterId order s [master] []

omit [DecidableEq V] in
/-- Nobody has the counter, and the master has not returned. -/
structure Lost (s : State V) : Prop where
  idle : ∀ w, ¬ (s.node w).pc.Counting
  empty : ∀ v j, ∀ m ∈ s.chan v j, m.counts = false
  running : ∀ ret last, (s.node master).pc ≠ .masterReturned ret last

inductive Phase (s : State V) : Prop
  | searching {order : List V} {top : V} {stack : Stack V}
      (h : Searching net master masterId order top stack s)
  | entering {order : List V} {top p : V} {i : ℕ} {st : Stack V}
      (h : Entering net master masterId order top p i st s)
  | returning {order : List V} {top p : V} {i : ℕ} {st : Stack V}
      (h : Returning net master masterId order top p i st s)
  | finished {order : List V} (h : Finished net master masterId order s)
  | lost (h : Lost master s)

end Stages

variable {net : Network nic V} {master : V} {masterId : ℕ} {boot : V → Mem}
variable {order : List V} {top p u v x : V} {i j : ℕ} {st stack : Stack V} {s s' : State V}
variable {e : Event V ℕ Msg} {tr : List (State V × Event V ℕ Msg)} {N : ℕ} {l : Place V ℕ}
variable {g : ℕ → Place V ℕ}

/-! ## The end of a run -/

theorem Lost.not_counting (h : Lost master s) (hkeep : KeepsCounter s e)
    (hs : step net s e = some s') : ¬ (s'.node e.at).pc.Counting := by
  have hidle : ∀ {u n}, Keeps (s.node u) n → ¬ n.pc.Counting := fun {u n} hk hc ↦
    h.idle u (hk.counting hc).1
  have hne : ∀ {u pc}, (s.node u).pc = pc → ¬ pc.Counting := fun {u pc} hpc hc ↦
    h.idle u (hpc ▸ hc)
  cases e with
  | internal u =>
      obtain ⟨hcall, rfl⟩ := next_internal_iff.mp hs
      simpa [Event.at, program] using hidle (keeps_onInternal hcall)
  | sent u =>
      obtain ⟨i, m, hcall, rfl⟩ := next_sent_iff.mp hs
      rcases onSent_cases hcall (fun _ _ hpc ↦ absurd trivial (hne hpc)) with
        ⟨hkeeps, -⟩ | ⟨_, hpc, -⟩ | ⟨hcount, -⟩
      · simpa [Event.at, program] using hidle hkeeps
      · exact absurd trivial (hne hpc)
      · exact absurd hcount (h.idle u)
  | sendError u =>
      obtain ⟨hcall, rfl⟩ := next_sendError_iff.mp hs
      have hkeeps := keeps_onSendError (n := s.node u) (fun _ _ _ _ hpc ↦ by
        simp [KeepsCounter, hpc, Pc.inWait] at hkeep) hcall
      simpa [Event.at, program] using hidle hkeeps
  | received u i m =>
      obtain ⟨ports, q, hcall, -, hchan, rfl⟩ := next_received_iff.mp hs
      rcases onRecv_cases i m hcall with hkeeps | ⟨hcounts, -⟩ | ⟨k, hpc, -⟩
      · simpa [Event.at, program] using hidle hkeeps
      · exact absurd (h.empty u i m (by simp [hchan])) (by simp [hcounts])
      · exact absurd trivial (hne hpc)
  | recvError u =>
      obtain ⟨hcall, rfl⟩ := next_recvError_iff.mp hs
      have hkeeps := keeps_onRecvError (n := s.node u) (fun _ _ hpc ↦ by
        simp [KeepsCounter, hpc, Pc.inWait] at hkeep) hcall
      simpa [Event.at, program] using hidle hkeeps
  | stray u i m =>
      obtain ⟨⟨ports, hcall, -⟩, rfl⟩ := next_stray_iff.mp hs
      simpa [Event.at, program] using hidle (keeps_unexpected i hkeep hcall)

omit [DecidableEq V] in
theorem onRecv_not_masterReturned {n : Node} (hcount : ¬ n.pc.Counting) {ports : ℕ → Bool}
    (hcall : call nic net u n = .recv ports) (iface : ℕ) (m : Msg) (ret : AxiomRet) (last : ℕ) :
    (onRecv nic iface m n).pc ≠ .masterReturned ret last := by
  obtain ⟨pc, mem⟩ := n
  cases pc with
  | listen =>
      simp only [onRecv]
      split <;> simp [axiomSlaveNodeDiscovery]
  | waitSetid | waitStart =>
      simp only [onRecv]
      split <;> simp [discoverPhase]
  | waitEnd i startNode =>
      cases hcmd : m.command with
      | endTopology =>
          simp only [onRecv, hcmd, endTopology]
          split <;> simp
      | _ => simp [onRecv, hcmd]
  | waitRsp | poll | report => exact absurd trivial hcount
  | _ => cases hcall

/-- Only a board that counts returns as master. -/
theorem not_masterReturned (hcount : ¬ (s.node e.at).pc.Counting) (hs : step net s e = some s')
    (ret : AxiomRet) (last : ℕ) : (s'.node e.at).pc ≠ .masterReturned ret last := by
  cases e with
  | internal u =>
      obtain ⟨hcall, rfl⟩ := next_internal_iff.mp hs
      rcases hn : s.node u with ⟨pc, m⟩
      simp only [program, Event.at, hn] at hcount hcall
      cases pc with
      | poll => exact absurd trivial hcount
      | report iface rest => cases rest <;> cases hcall
      | _ => cases hcall
  | sent u =>
      obtain ⟨i, m, hcall, rfl⟩ := next_sent_iff.mp hs
      rcases hn : s.node u with ⟨pc, m⟩
      simp only [program, Event.at, hn] at hcount hcall
      cases pc with
      | poll | sendSetid | sendStart | report => exact absurd trivial hcount
      | sendFirstRspId | sendRspNoid | sendRspId => simp [Event.at, program, onSent]
      | _ => cases hcall
  | sendError u =>
      obtain ⟨⟨i, m, hcall⟩, rfl⟩ := next_sendError_iff.mp hs
      rcases hn : s.node u with ⟨pc, m⟩
      simp only [program, Event.at, hn] at hcount hcall
      cases pc with
      | poll | sendSetid | sendStart | report => exact absurd trivial hcount
      | sendFirstRspId | sendRspNoid | sendRspId => simp [Event.at, program, onSendError]
      | _ => cases hcall
  | received u i m =>
      obtain ⟨ports, q, hcall, -, -, rfl⟩ := next_received_iff.mp hs
      simpa [Event.at, program] using onRecv_not_masterReturned hcount hcall i m ret last
  | recvError u =>
      obtain ⟨⟨ports, hcall⟩, rfl⟩ := next_recvError_iff.mp hs
      rcases hn : s.node u with ⟨pc, m⟩
      simp only [program, Event.at, hn] at hcount hcall
      cases pc with
      | poll | waitRsp | report => exact absurd trivial hcount
      | listen | waitSetid | waitStart | waitEnd => simp [Event.at, program, onRecvError]
      | _ => cases hcall
  | stray u i m =>
      obtain ⟨⟨ports, hcall, -⟩, rfl⟩ := next_stray_iff.mp hs
      simpa [Event.at, program] using onRecv_not_masterReturned hcount hcall i m ret last

/-- A lost counter stays lost, and the master goes on waiting. -/
theorem Lost.step (h : Lost master s) (hkeep : KeepsCounter s e) (hs : step net s e = some s') :
    Lost master s' := by
  refine ⟨fun w ↦ ?_, fun v j m hm ↦ ?_, fun ret last ↦ ?_⟩
  · by_cases hw : w = e.at
    · subst hw
      exact h.not_counting hkeep hs
    · rw [next_node_of_ne hs hw]
      exact h.idle w
  · rcases next_mem_chan hs hm with hm | ⟨i, -, hcall, -⟩
    · exact h.empty v j m hm
    · have hreport : ∀ iface rest, (s.node e.at).pc = .report iface rest →
          ∀ m ∈ rest, m.command = .topology := by
        intro iface rest hpc
        exact absurd (hpc ▸ trivial) (h.idle e.at)
      rcases onSent_cases hcall hreport with ⟨-, hcounts, -⟩ | ⟨_, hpc, -⟩ | ⟨hcount, -⟩
      · exact hcounts
      · exact absurd (hpc ▸ trivial) (h.idle e.at)
      · exact absurd hcount (h.idle e.at)
  · by_cases hw : master = e.at
    · rw [hw]
      exact not_masterReturned (h.idle e.at) hs ret last
    · rw [next_node_of_ne hs hw]
      exact h.running ret last

theorem Finished.step (h : Finished net master masterId order s) (hs : step net s e = some s') :
    Finished net master masterId order s' := by
  have hne : master ≠ e.at := by
    rintro rfl
    refine next_not_halted hs ?_
    change call nic net e.at (s.node e.at) = .halted
    simp [call, h.pc]
  have hnode := next_node_of_ne hs hne
  refine ⟨h.nodup, h.head, h.room, hnode ▸ h.pc, hnode ▸ h.sound, hnode ▸ h.mutual_, ?_⟩
  intro x hx hxm
  obtain ⟨y, hy, hlt, i, j, hwire, hknown⟩ := h.covered x hx hxm
  refine ⟨y, hy, hlt, i, j, hwire, ?_⟩
  simpa [hnode] using hknown

/-! ## The search at a board -/

theorem mem_chan_of_received {m : Msg} (he : e = .received u i m) (hs : step net s e = some s') :
    m ∈ s.chan u i := by
  subst he
  obtain ⟨_, _, _, _, hchan, _⟩ := next_received_iff.mp hs
  simp [hchan]

omit [DecidableEq V] in
theorem isRsp_eq_false {q : V × ℕ} {m : Msg} (hdue : due net s v j = 0)
    (hwire : net.wire v j = some q) (hm : m ∈ s.chan v j) : m.isRsp = false := by
  rw [due_of_wire (x := q.1) (k := q.2) hwire] at hdue
  have hzero : (s.chan v j).countP Msg.isRsp = 0 := by omega
  simpa using List.countP_eq_zero.mp hzero m hm

/-- While a board counts, no message carries the counter. -/
theorem counts_eq_false {m : Msg} (hone : OneCounter tr N l g s) (hu : (s.node u).pc.Counting)
    (hm : m ∈ s.chan v j) : m.counts = false := by
  by_contra hne
  have hl := hone.tokens.eq_port hm (by simpa using hne)
  rw [(hone.holder u hu).1] at hl
  cases hl

namespace Searching

theorem counting (h : Searching net master masterId order top stack s) :
    (s.node top).pc.Counting := by
  have hat := h.atBoard
  rcases hn : s.node top with ⟨pc, m⟩
  rw [hn] at hat
  cases pc with
  | poll | waitRsp | sendSetid => trivial
  | _ => exact hat.elim

theorem running (h : Searching net master masterId order top stack s) (ret : AxiomRet)
    (last : ℕ) : (s.node master).pc ≠ .masterReturned ret last := by
  refine h.toGround.not_masterReturned (fun hpc ↦ ?_) master
  have hcount := h.counting
  rw [hpc] at hcount
  exact hcount

theorem other (h : Searching net master masterId order top stack s)
    (hone : OneCounter tr N l g s) (hu : e.at ≠ top) (hkeep : KeepsIds s e)
    (hs : step net s e = some s') : Searching net master masterId order top stack s' := by
  have hend : ∀ i m, e = .received e.at i m → e.at ∈ stack.nodes →
      m.command ≠ .endTopology := by
    intro i m he _ hcmd
    have hcounts := counts_eq_false hone h.counting (mem_chan_of_received he hs)
    simp [Msg.counts, hcmd] at hcounts
  have hstray : ∀ u i m, e = .stray u i m → Unexpected (s.node u).pc m.command := by
    rintro u i m rfl
    exact hkeep
  obtain ⟨hground, hstill⟩ := h.toGround.other hu hkeep hone.reports hend hs
  have hnode := next_node_of_ne hs (Ne.symm hu)
  refine ⟨hground, ?_, ?_, ?_, fun j ↦ ?_, fun i m hm hcmd x j hwire ↦ ?_, ?_⟩
  · rw [hnode]
    exact h.atBoard
  · rw [hnode]
    exact h.role
  · rw [hnode]
    exact h.keeper
  · have hle := due_step (v := top) (j := j) hs hstray hone.reports
    rw [if_neg fun hc ↦ hu hc.1] at hle
    rw [hnode]
    exact hle.trans (h.asked j)
  · rcases next_mem_chan hs hm with hm | ⟨k, -, hcall, hwire'⟩
    · exact h.noid i m hm hcmd x j hwire
    · -- only a board without an id answers so
      have hx : (x, j) = (e.at, k) := Option.some.inj (hwire.symm.trans (net.symm hwire'))
      obtain ⟨rfl, -⟩ := Prod.mk.inj hx
      rcases h.other_cases hu hs with ⟨hnot, -⟩ | hstack
      · exact hnot
      · obtain ⟨⟨k', hwaits⟩, -⟩ := h.toGround.waits hstack
        rcases (hwaits.sent hcall).2.2 with ⟨hrsp, -⟩ | ⟨-, -, hstart, -⟩
        · exact absurd (hcmd.symm.trans hrsp) (by simp)
        · exact absurd (hcmd.symm.trans hstart) (by simp)
  · refine h.covered.mono (fun v hv y _ i hi hknows ↦ .inl ⟨v, hv, ?_⟩) (by simp)
    rcases List.mem_cons.mp hv with rfl | hv
    · rwa [hnode]
    · exact (hstill v hv).knows y i hi hknows

/-- Other than with an id the board only sends requests. -/
theorem fair_sent (h : Searching net master masterId order top stack s)
    (hsetid : ∀ i peerIf, (s.node top).pc ≠ .sendSetid i peerIf) (i : ℕ) (m : Msg) (v : V) (j : ℕ)
    (hcall : call nic net top (s.node top) = .send i m) (_ : net.wire top i = some (v, j)) :
    Fair net masterId order v j m := by
  have hat := h.atBoard
  rcases hn : s.node top with ⟨pc, mem⟩
  rw [hn] at hat hcall hsetid
  cases pc with
  | poll k =>
      simp only [call] at hcall
      split at hcall
      · cases hcall
        trivial
      · cases hcall
  | waitRsp => cases hcall
  | sendSetid k peerIf => exact absurd rfl (hsetid k peerIf)
  | _ => exact hat.elim

theorem move (h : Searching net master masterId order top stack s)
    (hone : OneCounter tr N l g s) (hu : e.at = top) (hkeep : KeepsIds s e)
    (hs : step net s e = some s') (hsetid : ∀ i peerIf, (s.node top).pc ≠ .sendSetid i peerIf)
    (hat : AtBoard net masterId order top (s'.node top))
    (hrole : (s'.node top).mem.role = (s.node top).mem.role)
    (hkeeper : Keeper net masterId order top (s'.node top).mem)
    (hasked : ∀ j, due net s' top j ≤ if (s'.node top).pc = .waitRsp j then 1 else 0)
    (hknows : ∀ y i, i < nic.interfacesNum → Knows masterId order (s.node top).mem.topology y i →
      Knows masterId order (s'.node top).mem.topology y i) :
    Searching net master masterId order top stack s' := by
  refine ⟨h.at_top hu hkeep hone.reports (h.fair_sent hsetid) hs, hat, ?_, hkeeper, hasked,
    fun i m hm hcmd x j hwire ↦ ?_, ?_⟩
  · rw [hrole]
    exact h.role
  · rcases next_mem_chan hs hm with hm | ⟨k, -, -, hwire'⟩
    · exact h.noid i m hm hcmd x j hwire
    · exact absurd hu (net.ne hwire')
  · refine h.covered.mono (fun v hv y _ i hi hk ↦ .inl ⟨v, hv, ?_⟩) (by simp)
    rcases List.mem_cons.mp hv with rfl | hv
    · exact hknows y i hi hk
    · rwa [next_node_of_ne hs (hu ▸ h.ne_top hv)]

theorem pc_cases (h : Searching net master masterId order top stack s) :
    ((∃ k, (s.node top).pc = .poll k ∨ (s.node top).pc = .waitRsp k) ∧
      (s.node top).mem.nextId + 1 = masterId + order.length) ∨
      ∃ k peerIf, (s.node top).pc = .sendSetid k peerIf := by
  have hat := h.atBoard
  cases hpc : (s.node top).pc with
  | poll k =>
      simp only [AtBoard, hpc] at hat
      exact .inl ⟨⟨k, .inl rfl⟩, hat⟩
  | waitRsp k =>
      simp only [AtBoard, hpc] at hat
      exact .inl ⟨⟨k, .inr rfl⟩, hat⟩
  | sendSetid k peerIf => exact .inr ⟨k, peerIf, rfl⟩
  | _ => simp only [AtBoard, hpc] at hat

/-- The loop over the interfaces ends: the master returns, a slave reports. -/
theorem ends (h : Searching net master masterId order top stack s)
    (hone : OneCounter tr N l g s) (hu : e.at = top) (hkeep : KeepsIds s e)
    (hs : step net s e = some s') (hsetid : ∀ i peerIf, (s.node top).pc ≠ .sendSetid i peerIf)
    (hend : s'.node top = endPhase nic (s.node top).mem) : Phase net master masterId s' := by
  have hground := h.at_top hu hkeep hone.reports (h.fair_sent hsetid) hs
  have hnode : ∀ w ∈ stack.nodes, s'.node w = s.node w := fun w hw ↦
    next_node_of_ne hs (hu ▸ h.ne_top hw)
  have hmem : (s'.node top).mem = (s.node top).mem := by rw [hend, endPhase]
  have hnext : (s.node top).mem.nextId + 1 = masterId + order.length := by
    rcases h.pc_cases with ⟨-, hnext⟩ | ⟨k, peerIf, hpc⟩
    · exact hnext
    · exact absurd hpc (hsetid k peerIf)
  have hroom := h.room
  cases stack with
  | nil =>
      obtain rfl : top = master := h.linked
      have hrole : (s.node top).mem.role = .master := h.role
      refine Phase.finished ⟨h.nodup, h.head, h.room, ?_, ?_, ?_, ?_⟩
      · rw [hend]
        have hlt : masterId + order.length < 256 := by omega
        simp only [endPhase, hrole, hnext, Nat.mod_eq_of_lt hlt]
      · rw [hmem]
        exact h.keeper.sound
      · rw [hmem]
        exact h.keeper.mutual_
      · refine h.covered.mono (fun v hv y _ i _ hk ↦ .inl ⟨v, hv, ?_⟩) (by simp)
        obtain rfl : v = top := by simpa using hv
        rwa [hmem]
  | cons f st =>
      obtain ⟨p, i⟩ := f
      obtain ⟨j, hwire, hrole⟩ := h.role
      have hpc : (s'.node top).pc = .report j (topologyReport nic (s.node top).mem.topology) := by
        rw [hend]
        simp only [endPhase, hrole]
      have hunsent : unsent (s'.node top) = topologyReport nic (s.node top).mem.topology ++
          [⟨.endTopology, (s.node top).mem.nextId, 0, 0, 0⟩] := by
        simp only [unsent, hpc, hmem]
      refine .returning ⟨hground, .inr ⟨j, _, hwire, hpc⟩, fun m hm hcmd ↦ ?_,
        s'.chan p i ++ topologyReport nic (s.node top).mem.topology,
        ⟨.endTopology, (s.node top).mem.nextId, 0, 0, 0⟩, ?_, rfl, hnext, ?_⟩
      · rw [hunsent] at hm
        rcases List.mem_append.mp hm with hm | hm
        · obtain ⟨-, x, hx, y, hy, k, k', hxy, hyx, hsrc, hdst, -⟩ :=
            truthful_of_mem_topologyReport hroom h.keeper.sound h.keeper.mutual_ hm
          exact ⟨x, hx, y, hy, k, k', hxy, hyx, hsrc, hdst⟩
        · obtain rfl := List.mem_singleton.mp hm
          cases hcmd
      · rw [hunsent, List.append_assoc]
      · refine h.covered.mono (fun v hv y hy k hk hknows ↦ ?_) (by simp)
        rcases List.mem_cons.mp hv with rfl | hv
        · obtain ⟨m, hm, hsrc, hif⟩ := exists_mem_topologyReport hroom hy hk hknows
          exact .inr ⟨m, List.mem_append_right _ hm, command_of_mem_topologyReport hm, hsrc, hif⟩
        · refine .inl ⟨v, hv, ?_⟩
          rwa [hnode v hv]

/-- What the send of the id does: `top` waits for the new board `x` behind its interface
`i`, and both ends of the link are recorded. -/
structure Numbers (net : Network nic V) (masterId : ℕ) (order : List V) (top x : V) (i : ℕ)
    (s s' : State V) : Prop where
  new : x ∉ order
  wire : ∃ j, net.wire top i = some (x, j)
  room : masterId + (order ++ [x]).length ≤ 255
  sent : ∃ src, call nic net top (s.node top) =
    .send i ⟨.setid, src, ident masterId (order ++ [x]) x, 0, 0⟩
  pc : (s'.node top).pc = .sendStart i
  role : (s'.node top).mem.role = (s.node top).mem.role
  next : (s'.node top).mem.nextId + 1 = masterId + (order ++ [x]).length
  keeper : Keeper net masterId (order ++ [x]) top (s'.node top).mem
  knows : ∀ y k, k < nic.interfacesNum →
    Knows masterId (order ++ [x]) (s.node top).mem.topology y k →
    Knows masterId (order ++ [x]) (s'.node top).mem.topology y k
  child : Knows masterId (order ++ [x]) (s'.node top).mem.topology top i
  others : ∀ w, w ≠ top → s'.node w = s.node w

theorem numbers (h : Searching net master masterId order top stack s)
    (hs : step net s (.sent top) = some s') {peerIf : ℕ}
    (hpc : (s.node top).pc = .sendSetid i peerIf) :
    ∃ x, Numbers net masterId order top x i s s' := by
  have hat := h.atBoard
  simp only [AtBoard, hpc] at hat
  obtain ⟨hnext, hlt, x, hx, hwire⟩ := hat
  have htop : s'.node top = onSent nic (s.node top) := by
    obtain ⟨_, _, -, rfl⟩ := next_sent_iff.mp hs
    simp [program]
  simp only [onSent, hpc] at htop
  have hroom : masterId + (order ++ [x]).length ≤ 255 := by
    rw [List.length_append, List.length_singleton]
    omega
  have hxid : ident masterId (order ++ [x]) x = (s.node top).mem.nextId := by
    rw [ident_append_new hx, hnext]
  have htopmem : top ∈ order ++ [x] := List.mem_append_left _ h.top_mem
  have hkeeper := h.keeper.append h.top_mem x
  have hlink : Reports net masterId (order ++ [x])
      ⟨.topology, (s.node top).mem.nodeId, (s.node top).mem.nextId, i, peerIf⟩ :=
    ⟨top, htopmem, x, by simp, _, _, hwire, net.symm hwire, hkeeper.id, hxid.symm⟩
  obtain ⟨hlinked, hknows⟩ := hkeeper.link hroom hlink
  refine ⟨x, hx, ⟨_, hwire⟩, hroom, ⟨(s.node top).mem.nodeId, by simp only [call, hpc, hxid]⟩,
    by rw [htop], by rw [htop], ?_, ?_, ?_, ?_, fun w hw ↦ next_node_of_ne hs hw⟩
  · rw [htop, List.length_append, List.length_singleton]
    exact (congrArg (· + 1) hnext).trans (Nat.add_assoc _ _ _)
  · rw [htop]
    exact ⟨hlinked.id, hlinked.sound, hlinked.mutual_⟩
  · rw [htop]
    exact hknows
  · rw [htop]
    simp only
    rw [hkeeper.id, ← hxid]
    exact link_knows_left hroom htopmem (by simp) hwire (net.symm hwire)

theorem ground_enters (h : Searching net master masterId order top stack s)
    (hone : OneCounter tr N l g s) (hs : step net s (.sent top) = some s') {peerIf : ℕ}
    (hpc : (s.node top).pc = .sendSetid i peerIf) (hx : Numbers net masterId order top x i s s') :
    Ground net master masterId (order ++ [x]) x ((top, i) :: stack) s' := by
  have hquiet : ∀ v, v ∉ order ∨ v ∈ stack.nodes → ∀ j, due net s' v j = 0 := fun v hv j ↦
    h.quiet_step (e := .sent top) trivial hone.reports hs hv j
  refine ⟨?_, ?_, hx.room, by simp, ?_, ?_, fun w hw ↦ ?_, fun v j m hm ↦ ?_, fun v hv j ↦ ?_,
    blank_step h.blank hs⟩
  · have hne : ∀ a ∈ order, a ≠ x := fun a ha heq ↦ hx.new (heq ▸ ha)
    simpa [List.nodup_append, h.nodup] using hne
  · rw [List.head?_append_of_ne_nil _ (List.ne_nil_of_mem h.top_mem)]
    exact h.head
  · refine ⟨hx.wire, List.mem_append_left _ h.top_mem, ?_, h.linked.append h.top_mem⟩
    rw [idxOf_append_of_mem h.top_mem, idxOf_append_new hx.new]
    exact List.idxOf_lt_length_of_mem h.top_mem
  · refine ⟨?_, h.roles.congr fun w hw ↦ by rw [hx.others w (h.ne_top hw)]⟩
    simp only [hx.role]
    exact h.role
  · refine ⟨fun hmem ↦ ?_, fun hmem hstack ↦ ?_, fun k hk ↦ ?_⟩
    · simp only [List.mem_append, not_or] at hmem
      have hne : w ≠ top := fun heq ↦ hmem.1 (heq ▸ h.top_mem)
      rw [hx.others w hne]
      exact (h.boards w hne).idle hmem.1
    · simp only [Stack.nodes_cons, List.mem_cons, not_or] at hstack
      rw [hx.others w hstack.1]
      exact (h.boards w hstack.1).returned (by simpa [hw] using hmem) hstack.2
    · rcases List.mem_cons.mp hk with heq | hk
      · obtain ⟨rfl, rfl⟩ := Prod.mk.inj heq
        refine ⟨?_, hx.keeper⟩
        rw [hx.pc]
        rfl
      · have hne := h.ne_top (mem_nodes hk)
        obtain ⟨hwaits, hk'⟩ := (h.boards w hne).waits k hk
        rw [hx.others w hne]
        exact ⟨hwaits, hk'.append (h.mem_order (mem_nodes hk)) x⟩
  · rcases next_mem_chan hs hm with hm | ⟨k, -, hcall, hwire⟩
    · exact (h.fair v j m hm).append x
    · obtain ⟨src, hsent⟩ := hx.sent
      obtain ⟨j', hwire'⟩ := hx.wire
      obtain ⟨rfl, rfl⟩ := Call.send.inj (hsent.symm.trans hcall)
      obtain ⟨rfl, -⟩ := Prod.mk.inj (Option.some.inj (hwire.symm.trans hwire'))
      exact ⟨by simp, rfl⟩
  · rcases hv with hv | hv
    · exact hquiet v (.inl fun hmem ↦ hv (List.mem_append_left _ hmem)) j
    · rcases List.mem_cons.mp hv with rfl | hv
      · have hle := due_sent (v := v) (j := j) hs (hone.reports v)
        have hasked := h.asked j
        simp only [hpc, reduceCtorEq, and_false, if_false] at hle hasked
        omega
      · exact hquiet v (.inr hv) j

theorem covered_enters (h : Searching net master masterId order top stack s)
    (hx : Numbers net masterId order top x i s s') :
    Covered net master masterId (order ++ [x]) s' (top :: stack.nodes) [] := by
  intro z hz hzm
  rcases List.mem_append.mp hz with hz | hz
  · obtain ⟨y, hy, hlt, k, j, hwire, ⟨v, hv, hk⟩ | ⟨_, hm, -⟩⟩ := h.covered z hz hzm
    · refine ⟨y, List.mem_append_left _ hy, ?_, k, j, hwire, .inl ⟨v, hv, ?_⟩⟩
      · rwa [idxOf_append_of_mem hy, idxOf_append_of_mem hz]
      · have hk' := (knows_append_iff (v := x) hy).mpr hk
        rcases List.mem_cons.mp hv with rfl | hv
        · exact hx.knows y k (net.lt_interfacesNum hwire) hk'
        · rwa [hx.others v (h.ne_top hv)]
    · cases hm
  · obtain rfl := List.mem_singleton.mp hz
    obtain ⟨j, hwire⟩ := hx.wire
    refine ⟨top, List.mem_append_left _ h.top_mem, ?_, i, j, hwire, .inl ⟨top, by simp, hx.child⟩⟩
    rw [idxOf_append_of_mem h.top_mem, idxOf_append_new hx.new]
    exact List.idxOf_lt_length_of_mem h.top_mem

/-- The board sends the id to the new board, which the search then enters. -/
theorem enters (h : Searching net master masterId order top stack s)
    (hone : OneCounter tr N l g s) (hs : step net s (.sent top) = some s') {peerIf : ℕ}
    (hpc : (s.node top).pc = .sendSetid i peerIf) : Phase net master masterId s' := by
  obtain ⟨x, hx⟩ := h.numbers hs hpc
  have hne : x ≠ top := fun heq ↦ hx.new (heq ▸ h.top_mem)
  refine .entering ⟨h.ground_enters hone hs hpc hx, ?_,
    h.quiet_step (e := .sent top) trivial hone.reports hs (.inl hx.new), .inl ⟨hx.pc, hx.next⟩,
    h.covered_enters hx⟩
  rw [hx.others x hne]
  exact .inl ((h.boards x hne).idle hx.new)

/-- The answer to the last request comes from the interface polled, and nothing is due
any more. -/
theorem answered (h : Searching net master masterId order top stack s) {k : ℕ} {m : Msg}
    (hpc : (s.node top).pc = .waitRsp i) (hs : step net s (.received top k m) = some s')
    (hrsp : m.isRsp = true) {q : V × ℕ} (hwire : net.wire top k = some q) :
    k = i ∧ ∀ j, due net s' top j = 0 := by
  have hki : k = i := by
    have hle := due_received (x := q.1) (k := q.2) hwire hs
    have hasked := h.asked k
    rw [if_pos ⟨rfl, rfl, hrsp⟩] at hle
    rw [hpc] at hasked
    by_contra hne
    rw [if_neg (by simpa using Ne.symm hne)] at hasked
    omega
  refine ⟨hki, fun j ↦ ?_⟩
  cases hwire' : net.wire top j with
  | none => simp [due, hwire']
  | some q' =>
      have hle := due_received (x := q'.1) (k := q'.2) hwire' hs
      have hasked := h.asked j
      rw [hpc] at hasked
      by_cases hj : i = j
      · rw [if_pos ⟨rfl, hki.trans hj, hrsp⟩] at hle
        rw [if_pos (by rw [hj])] at hasked
        omega
      · rw [if_neg (by simpa using hj)] at hasked
        omega

theorem internal (h : Searching net master masterId order top stack s)
    (hone : OneCounter tr N l g s) (hs : step net s (.internal top) = some s') :
    Phase net master masterId s' := by
  have hkeep : KeepsIds s (.internal top) := trivial
  obtain ⟨hcall, hs'⟩ := next_internal_iff.mp hs
  have hcall' : call nic net top (s.node top) = .internal := hcall
  have hnode : s'.node top = onInternal nic net top (s.node top) := by
    rw [hs']
    simp [program]
  rcases h.pc_cases with ⟨⟨k, hpc | hpc⟩, hnext⟩ | ⟨k, peerIf, hpc⟩
  · simp only [onInternal, hpc] at hnode
    split at hnode
    · refine .searching (h.move hone rfl hkeep hs (by simp [hpc]) ?_ ?_ ?_ (fun j ↦ ?_) ?_)
      · rw [hnode]
        exact hnext
      · rw [hnode]
      · rw [hnode]
        exact h.keeper
      · have hle : due net s' top j ≤ due net s top j := by
          rw [hs']
          exact due_setNode (.inr (answers_onInternal hcall))
        have hasked := h.asked j
        simp only [hpc, reduceCtorEq, if_false] at hasked
        omega
      · rw [hnode]
        exact fun _ _ _ hk ↦ hk
    · exact h.ends hone rfl hkeep hs (by simp [hpc]) hnode
  · simp [call, hpc] at hcall'
  · simp [call, hpc] at hcall'

theorem sent (h : Searching net master masterId order top stack s)
    (hone : OneCounter tr N l g s) (hs : step net s (.sent top) = some s') :
    Phase net master masterId s' := by
  have hkeep : KeepsIds s (.sent top) := trivial
  obtain ⟨i, m, hcall, hs'⟩ := next_sent_iff.mp hs
  have hcall' : call nic net top (s.node top) = .send i m := hcall
  have hnode : s'.node top = onSent nic (s.node top) := by
    rw [hs']
    simp [program]
  rcases h.pc_cases with ⟨⟨k, hpc | hpc⟩, hnext⟩ | ⟨k, peerIf, hpc⟩
  · simp only [onSent, hpc] at hnode
    refine .searching (h.move hone rfl hkeep hs (by simp [hpc]) ?_ ?_ ?_ (fun j ↦ ?_) ?_)
    · rw [hnode]
      exact hnext
    · rw [hnode]
    · rw [hnode]
      exact h.keeper
    · have hle := due_sent (v := top) (j := j) hs (hone.reports top)
      have hasked := h.asked j
      rw [hnode]
      simp only [hpc, reduceCtorEq, if_false, true_and, Pc.poll.injEq, Pc.waitRsp.injEq]
        at hle hasked ⊢
      omega
    · rw [hnode]
      exact fun _ _ _ hk ↦ hk
  · simp [call, hpc] at hcall'
  · exact h.enters hone hs hpc

theorem sendError (h : Searching net master masterId order top stack s)
    (hone : OneCounter tr N l g s) (hkeep : KeepsIds s (.sendError top))
    (hs : step net s (.sendError top) = some s') : Phase net master masterId s' := by
  obtain ⟨⟨i, m, hcall⟩, hs'⟩ := next_sendError_iff.mp hs
  have hcall' : call nic net top (s.node top) = .send i m := hcall
  rcases h.pc_cases with ⟨⟨k, hpc | hpc⟩, -⟩ | ⟨k, peerIf, hpc⟩
  · refine h.ends hone rfl hkeep hs (by simp [hpc]) ?_
    rw [hs']
    simp [program, onSendError, hpc]
  · simp [call, hpc] at hcall'
  · simp [KeepsIds, critical, hpc] at hkeep

theorem waitRsp_of_recv (h : Searching net master masterId order top stack s) {ports : ℕ → Bool}
    (hcall : call nic net top (s.node top) = .recv ports) :
    ∃ k, (s.node top).pc = .waitRsp k ∧ (s.node top).mem.nextId + 1 = masterId + order.length := by
  rcases h.pc_cases with ⟨⟨k, hpc | hpc⟩, hnext⟩ | ⟨k, peerIf, hpc⟩
  · simp only [call, hpc] at hcall
    split at hcall <;> cases hcall
  · exact ⟨k, hpc, hnext⟩
  · simp [call, hpc] at hcall

theorem recvError (h : Searching net master masterId order top stack s)
    (hone : OneCounter tr N l g s) (hkeep : KeepsIds s (.recvError top))
    (hs : step net s (.recvError top) = some s') : Phase net master masterId s' := by
  obtain ⟨⟨ports, hcall⟩, hs'⟩ := next_recvError_iff.mp hs
  obtain ⟨k, hpc, -⟩ := h.waitRsp_of_recv hcall
  refine h.ends hone rfl hkeep hs (by simp [hpc]) ?_
  rw [hs']
  simp [program, onRecvError, hpc]

theorem stray (h : Searching net master masterId order top stack s)
    (hone : OneCounter tr N l g s) {m : Msg} (hkeep : KeepsIds s (.stray top i m))
    (hs : step net s (.stray top i m) = some s') : Phase net master masterId s' := by
  obtain ⟨⟨ports, hcall, -⟩, hs'⟩ := next_stray_iff.mp hs
  obtain ⟨k, hpc, -⟩ := h.waitRsp_of_recv hcall
  have hcmd : m.command ≠ .rspId ∧ m.command ≠ .rspNoid := by
    have hun : Unexpected (s.node top).pc m.command := hkeep
    rwa [hpc] at hun
  refine h.ends hone rfl hkeep hs (by simp [hpc]) ?_
  rw [hs']
  simp [program, onRecv, hpc, hcmd]

theorem received (h : Searching net master masterId order top stack s)
    (hone : OneCounter tr N l g s) {m : Msg} (hkeep : KeepsIds s (.received top i m))
    (hs : step net s (.received top i m) = some s') : Phase net master masterId s' := by
  obtain ⟨ports, q, hcall, -, hchan, hs'⟩ := next_received_iff.mp hs
  obtain ⟨k, hpc, hnext⟩ := h.waitRsp_of_recv hcall
  have hm : m ∈ s.chan top i := by simp [hchan]
  have hfair := h.fair top i m hm
  have hnode : s'.node top = onRecv nic i m (s.node top) := by
    rw [hs']
    simp [program]
  have hsetid : ∀ i peerIf, (s.node top).pc ≠ .sendSetid i peerIf := by simp [hpc]
  simp only [onRecv, hpc] at hnode
  cases hcmd : m.command with
  | rspId =>
      simp only [Fair, hcmd] at hfair hnode
      obtain ⟨x, hx, hwire, hsrc⟩ := hfair
      obtain ⟨rfl, hdue⟩ := h.answered hpc hs (by simp [Msg.isRsp, hcmd]) hwire
      have hlink : Reports net masterId order
          ⟨.topology, (s.node top).mem.nodeId, m.srcNode, i, m.srcIf⟩ :=
        ⟨top, h.top_mem, x, hx, _, _, hwire, net.symm hwire, h.keeper.id, hsrc⟩
      obtain ⟨hkeeper, hknows⟩ := h.keeper.link h.room hlink
      refine .searching (h.move hone rfl hkeep hs hsetid ?_ ?_ ?_ (fun j ↦ ?_) ?_)
      · rw [hnode]
        exact hnext
      · rw [hnode]
      · rw [hnode]
        exact hkeeper
      · rw [hdue j]
        exact Nat.zero_le _
      · rw [hnode]
        exact hknows
  | rspNoid =>
      simp only [Fair, hcmd] at hfair hnode
      obtain ⟨x, hwire⟩ := hfair
      obtain ⟨rfl, hdue⟩ := h.answered hpc hs (by simp [Msg.isRsp, hcmd]) hwire
      have hlt : (s.node top).mem.nextId < 254 := hkeep (by simp [hpc, Pc.asks]) hcmd
      have hmod : ((s.node top).mem.nextId + 1) % 256 = masterId + order.length := by omega
      refine .searching (h.move hone rfl hkeep hs hsetid ?_ ?_ ?_ (fun j ↦ ?_) ?_)
      · rw [hnode]
        refine ⟨hmod, ?_, x, h.noid i m hm hcmd x _ hwire, hwire⟩
        simp only
        omega
      · rw [hnode]
      · rw [hnode]
        exact ⟨h.keeper.id, h.keeper.sound, h.keeper.mutual_⟩
      · rw [hdue j]
        exact Nat.zero_le _
      · rw [hnode]
        exact fun _ _ _ hk ↦ hk
  | _ =>
      simp only [hcmd] at hnode
      exact h.ends hone rfl hkeep hs hsetid hnode

theorem step (h : Searching net master masterId order top stack s)
    (hone : OneCounter tr N l g s) (hkeep : KeepsIds s e) (hs : step net s e = some s') :
    Phase net master masterId s' := by
  by_cases hu : e.at = top
  · cases e with
    | internal u =>
        obtain rfl : u = top := hu
        exact h.internal hone hs
    | sent u =>
        obtain rfl : u = top := hu
        exact h.sent hone hs
    | sendError u =>
        obtain rfl : u = top := hu
        exact h.sendError hone hkeep hs
    | received u i m =>
        obtain rfl : u = top := hu
        exact h.received hone hkeep hs
    | recvError u =>
        obtain rfl : u = top := hu
        exact h.recvError hone hkeep hs
    | stray u i m =>
        obtain rfl : u = top := hu
        exact h.stray hone hkeep hs
  · exact .searching (h.other hone hu hkeep hs)

end Searching

/-! ## The search enters a board -/

/-- The counter is lost when the message that carries it is read in vain. -/
theorem lost_of_received {m : Msg} (hone : OneCounter tr N l g s) (hcounts : m.counts = true)
    (hrun : ∀ ret last, (s.node master).pc ≠ .masterReturned ret last)
    (hs : step net s (.received u i m) = some s') (hu : ¬ (s'.node u).pc.Counting) :
    Lost master s' := by
  have hnot : ∀ w, ¬ (s.node w).pc.Counting := fun w hc ↦ by
    have hfalse := counts_eq_false hone hc (mem_chan_of_received rfl hs)
    simp [hcounts] at hfalse
  refine ⟨fun w ↦ ?_, fun v j m' hm' ↦ ?_, fun ret last ↦ ?_⟩
  · by_cases hw : w = u
    · rwa [hw]
    · rw [next_node_of_ne hs hw]
      exact hnot w
  · obtain ⟨_, q, -, -, hchan, rfl⟩ := next_received_iff.mp hs
    by_contra hne
    have hnone := hone.tokens.take hcounts hchan .nowhere
    exact absurd (hnone.eq_port hm' (by simpa using hne)) (by simp)
  · by_cases hw : master = u
    · rw [hw]
      exact not_masterReturned (e := .received u i m) (hnot u) hs ret last
    · rw [next_node_of_ne hs hw]
      exact hrun ret last

/-- Unless it is started the board goes on waiting, with its number or without. -/
theorem Entered.step (h : Entered masterId order e.at (s.node e.at)) (hkeep : KeepsIds s e)
    (hfair : ∀ v j, ∀ m ∈ s.chan v j, Fair net masterId order v j m)
    (hstart : ∀ k m, e = .received e.at k m → m.command ≠ .start) (hs : step net s e = some s') :
    Entered masterId order e.at (s'.node e.at) := by
  cases e with
  | internal u =>
      obtain ⟨hcall, rfl⟩ := next_internal_iff.mp hs
      rcases h with hidle | ⟨hpc, -⟩
      · exact absurd hcall hidle.not_internal
      · simp only [Event.at] at hpc
        simp [program, call, hpc] at hcall
  | sent u =>
      obtain ⟨i, m, hcall, rfl⟩ := next_sent_iff.mp hs
      rcases h with hidle | ⟨hpc, -⟩
      · exact .inl (by simpa [Event.at, program] using (hidle.sent hcall).1)
      · simp only [Event.at] at hpc
        simp [program, call, hpc] at hcall
  | sendError u =>
      obtain ⟨⟨i, m, hcall⟩, rfl⟩ := next_sendError_iff.mp hs
      rcases h with hidle | ⟨hpc, -⟩
      · exact .inl (by simpa [Event.at, program] using hidle.sendError)
      · simp only [Event.at] at hpc
        simp [program, call, hpc] at hcall
  | received u k m =>
      obtain ⟨ports, q, -, -, hchan, rfl⟩ := next_received_iff.mp hs
      have hm := hfair u k m (by simp [hchan])
      have hcmd := hstart k m rfl
      rcases h with hidle | ⟨hpc, hid⟩
      · by_cases hset : (s.node u).pc = .waitSetid ∧ m.command = .setid
        · obtain ⟨hpc, hset⟩ := hset
          simp only [Fair, hset] at hm
          exact .inr (by simpa [Event.at, program, onRecv, hpc, hset] using hm.2)
        · refine .inl ?_
          have hrecv : Idle (onRecv nic k m (s.node u)).pc := hidle.recv fun hpc hset' ↦
            hset ⟨hpc, hset'⟩
          simpa [Event.at, program] using hrecv
      · simp only [Event.at] at hpc hid
        exact .inr (by simp [Event.at, program, onRecv, hpc, hcmd, hid])
  | recvError u =>
      obtain ⟨-, rfl⟩ := next_recvError_iff.mp hs
      rcases h with hidle | ⟨hpc, -⟩
      · exact .inl (by simpa [Event.at, program] using hidle.recvError)
      · simp only [Event.at] at hpc
        exact .inl (by simp [Event.at, program, onRecvError, hpc, Idle])
  | stray u k m =>
      obtain ⟨-, rfl⟩ := next_stray_iff.mp hs
      have hun : Unexpected (s.node u).pc m.command := hkeep
      change Entered masterId order u (s.node u) at h
      rcases h with hidle | ⟨hpc, hid⟩
      · refine .inl ?_
        have hrecv : Idle (onRecv nic k m (s.node u)).pc := hidle.recv fun hpc hset ↦ by
          rw [hpc] at hun
          exact hun hset
        simpa [Event.at, program] using hrecv
      · rw [hpc] at hun
        have hcmd : m.command ≠ .start := hun
        exact .inr (by simp [Event.at, program, onRecv, hpc, hcmd, hid])

namespace Entering

/-- The counter is with the parent, or under way to the new board. -/
theorem place (h : Entering net master masterId order top p i st s)
    (hone : OneCounter tr N l g s) {m : Msg} (hm : m ∈ s.chan v j) (hcounts : m.counts = true) :
    v = top ∧ net.wire p i = some (top, j) ∧ m.counter + 1 = masterId + order.length := by
  rcases h.counter with ⟨hpc, -⟩ | ⟨k, hwire, m', hm', hcmd, hnext⟩
  · have hfalse := counts_eq_false hone (u := p) (by rw [hpc]; trivial) hm
    simp [hcounts] at hfalse
  · have hcounts' : m'.counts = true := by simp [Msg.counts, hcmd]
    have hport := (hone.tokens.eq_port hm hcounts).symm.trans (hone.tokens.eq_port hm' hcounts')
    obtain ⟨rfl, rfl⟩ := Place.port.inj hport
    refine ⟨rfl, hwire, ?_⟩
    have hcounter : m'.counter = m'.dstNode := by simp [Msg.counter, hcmd]
    rw [hone.carried v j m hm hcounts, ← hone.carried v j m' hm' hcounts', hcounter, hnext]

theorem calm_step (h : Entering net master masterId order top p i st s)
    (hone : OneCounter tr N l g s) (hkeep : KeepsIds s e) (hs : step net s e = some s') (j : ℕ) :
    due net s' top j = 0 := by
  have hstray : ∀ u i m, e = .stray u i m → Unexpected (s.node u).pc m.command := by
    rintro u i m rfl
    exact hkeep
  have hpoll : (s.node top).pc ≠ .poll j := by
    intro hpc
    rcases h.entered with hidle | ⟨hpc', -⟩
    · rw [hpc] at hidle
      exact hidle
    · exact absurd (hpc.symm.trans hpc') (by simp)
  have hle := due_step (v := top) (j := j) hs hstray hone.reports
  rw [if_neg fun hc ↦ hpoll hc.2, h.calm j] at hle
  omega

theorem other (h : Entering net master masterId order top p i st s)
    (hone : OneCounter tr N l g s) (hu : e.at ≠ top) (hkeep : KeepsIds s e)
    (hs : step net s e = some s') : Entering net master masterId order top p i st s' := by
  have hend : ∀ k m, e = .received e.at k m → e.at ∈ Stack.nodes ((p, i) :: st) →
      m.command ≠ .endTopology := by
    intro k m he _ hcmd
    exact hu (h.place hone (mem_chan_of_received he hs) (by simp [Msg.counts, hcmd])).1
  obtain ⟨hground, hstill⟩ := h.toGround.other hu hkeep hone.reports hend hs
  refine ⟨hground, ?_, h.calm_step hone hkeep hs, ?_, ?_⟩
  · rw [next_node_of_ne hs (Ne.symm hu)]
    exact h.entered
  · rcases h.counter with ⟨hpc, hnext⟩ | ⟨j, hwire, m, hm, hcmd, hnext⟩
    · by_cases hp : e.at = p
      · obtain ⟨⟨j, hwire⟩, -⟩ := h.linked
        have hcall : call nic net p (s.node p) =
            .send i ⟨.start, (s.node p).mem.nodeId, (s.node p).mem.nextId, 0, 0⟩ := by
          simp only [call, hpc]
        subst hp
        rcases next_of_send hs hcall with he | he
        · rw [he] at hs
          have hchan := next_sent_chan hs hcall hwire
          exact .inr ⟨j, hwire, _, hchan ▸ List.mem_append_right _ (List.mem_singleton_self _),
            rfl, hnext⟩
        · rw [he] at hkeep
          simp [KeepsIds, critical, hpc] at hkeep
      · rw [next_node_of_ne hs (Ne.symm hp)]
        exact .inl ⟨hpc, hnext⟩
    · refine .inr ⟨j, hwire, m, next_mem_chan_of_ne hs hm ?_, hcmd, hnext⟩
      rintro rfl
      exact hu rfl
  · refine h.covered.mono (fun v hv y _ k hk hknows ↦ .inl ⟨v, hv, ?_⟩) (by simp)
    exact (hstill v hv).knows y k hk hknows

theorem fair_sent (h : Entering net master masterId order top p i st s) (k : ℕ) (m : Msg) (v : V)
    (j : ℕ) (hcall : call nic net top (s.node top) = .send k m)
    (hwire : net.wire top k = some (v, j)) : Fair net masterId order v j m := by
  rcases h.entered with hidle | ⟨hpc, -⟩
  · obtain ⟨-, hcmd, hif⟩ := hidle.sent hcall
    simp only [Fair, hcmd, hif]
    exact ⟨top, net.symm hwire⟩
  · simp [call, hpc] at hcall

/-- The new board takes over the counter. -/
theorem started (h : Entering net master masterId order top p i st s)
    (hone : OneCounter tr N l g s) {k : ℕ} {m : Msg} (hkeep : KeepsIds s (.received top k m))
    (hs : step net s (.received top k m) = some s') (hcmd : m.command = .start)
    (hpc : (s.node top).pc = .waitStart)
    (hid : (s.node top).mem.nodeId = ident masterId order top) :
    Searching net master masterId order top ((p, i) :: st) s' := by
  obtain ⟨-, hwire, hnext⟩ :=
    h.place hone (mem_chan_of_received rfl hs) (by simp [Msg.counts, hcmd])
  have hnode : s'.node top = discoverPhase nic
      { (s.node top).mem with role := .slave k, nextId := m.dstNode } := by
    obtain ⟨_, _, -, -, -, rfl⟩ := next_received_iff.mp hs
    simp [program, onRecv, hpc, hcmd]
  have hblank : (s.node top).mem.topology = axiomTopologyInit := by
    have hblank := h.blank top
    simpa only [Blank, hpc] using hblank
  refine ⟨h.at_top rfl hkeep hone.reports h.fair_sent hs, ?_, ?_, ?_, fun j ↦ ?_,
    fun j m' hm' hcmd' x j' hwire' ↦ ?_, ?_⟩
  · rw [hnode]
    simpa [AtBoard, discoverPhase, Msg.counter, hcmd] using hnext
  · rw [hnode]
    exact ⟨k, hwire, rfl⟩
  · rw [hnode]
    exact ⟨hid, hblank ▸ sound_init, hblank ▸ mutual_init⟩
  · rw [h.calm_step hone hkeep hs j]
    exact Nat.zero_le _
  · have hrsp := isRsp_eq_false (h.calm_step hone hkeep hs j) hwire' hm'
    simp [Msg.isRsp, hcmd'] at hrsp
  · refine h.covered.mono (fun v hv y _ j _ hknows ↦ .inl ⟨v, List.mem_cons_of_mem _ hv, ?_⟩)
      (by simp)
    rwa [next_node_of_ne hs (h.ne_top hv)]

theorem running (h : Entering net master masterId order top p i st s) (ret : AxiomRet)
    (last : ℕ) : (s.node master).pc ≠ .masterReturned ret last := by
  refine h.toGround.not_masterReturned (fun hpc ↦ ?_) master
  rcases h.entered with hidle | ⟨hpc', -⟩
  · rw [hpc] at hidle
    exact hidle
  · exact absurd (hpc.symm.trans hpc') (by simp)

theorem step (h : Entering net master masterId order top p i st s)
    (hone : OneCounter tr N l g s) (hkeep : KeepsIds s e) (hs : step net s e = some s') :
    Phase net master masterId s' := by
  by_cases hu : e.at = top
  · by_cases hstart : ∃ k m, e = .received top k m ∧ m.command = .start
    · obtain ⟨k, m, rfl, hcmd⟩ := hstart
      rcases h.entered with hidle | ⟨hpc, hid⟩
      · refine .lost (lost_of_received hone (by simp [Msg.counts, hcmd]) h.running hs ?_)
        · have hidle' : Idle (s'.node top).pc := by
            obtain ⟨_, _, -, -, -, rfl⟩ := next_received_iff.mp hs
            have hrecv : Idle (onRecv nic k m (s.node top)).pc := hidle.recv fun _ ↦ by simp [hcmd]
            simpa [program] using hrecv
          exact hidle'.not_counting
      · exact .searching (h.started hone hkeep hs hcmd hpc hid)
    · subst hu
      have hentered := Entered.step h.entered hkeep h.fair
        (fun k m he hcmd ↦ hstart ⟨k, m, he, hcmd⟩) hs
      have hnode : ∀ w ∈ Stack.nodes ((p, i) :: st), s'.node w = s.node w := fun w hw ↦
        next_node_of_ne hs (h.ne_top hw)
      refine .entering ⟨h.at_top rfl hkeep hone.reports h.fair_sent hs, hentered,
        h.calm_step hone hkeep hs, ?_, ?_⟩
      · rcases h.counter with ⟨hpc, hnext⟩ | ⟨j, hwire, m, hm, hcmd, hnext⟩
        · rw [hnode p (by simp)]
          exact .inl ⟨hpc, hnext⟩
        · refine .inr ⟨j, hwire, m, next_mem_chan_of_ne hs hm ?_, hcmd, hnext⟩
          exact fun he ↦ hstart ⟨j, m, he, hcmd⟩
      · refine h.covered.mono (fun v hv y _ j _ hknows ↦ .inl ⟨v, hv, ?_⟩) (by simp)
        rwa [hnode v hv]
  · exact .entering (h.other hone hu hkeep hs)

end Entering

/-! ## The search comes back from a board -/

omit [DecidableEq V] in
/-- A board that reports sends what it has not sent yet, one message after the other. -/
theorem call_report (net : Network nic V) (u : V) {n : Node} {rest : List Msg}
    (hpc : n.pc = .report j rest) :
    ∃ m, call nic net u n = .send j m ∧ unsent n = m :: unsent (onSent nic n) ∧
      ((onSent nic n).pc = .returned ∨ ∃ rest', (onSent nic n).pc = .report j rest') := by
  cases rest with
  | nil => exact ⟨⟨.endTopology, n.mem.nextId, 0, 0, 0⟩, by simp [call, hpc],
      by simp [unsent, onSent, hpc], .inl (by simp [onSent, hpc])⟩
  | cons m rest => exact ⟨m, by simp [call, hpc], by simp [unsent, onSent, hpc],
      .inr ⟨rest, by simp [onSent, hpc]⟩⟩

/-- A waiting board stores what it is told. -/
theorem knows_of_received {k : ℕ} {m : Msg} (hw : WaitsAt i (s.node u).pc)
    (hroom : masterId + order.length ≤ 255) (hcmd : m.command = .topology)
    (hm : Reports net masterId order m) (hs : step net s (.received u k m) = some s') {y : V}
    (hy : y ∈ order) (hsrc : m.srcNode = ident masterId order y) :
    Knows masterId order (s'.node u).mem.topology y m.srcIf := by
  obtain ⟨ports, q, hcall, -, -, rfl⟩ := next_received_iff.mp hs
  obtain ⟨x, hx, z, hz, j, j', hxz, hzx, hsrc', hdst⟩ := hm
  obtain rfl := ident_inj hy (hsrc.symm.trans hsrc')
  have hmem : (onRecv nic k m (s.node u)).mem.topology = (s.node u).mem.topology.link
      nic.interfacesNum m.srcNode m.srcIf m.dstNode m.dstIf := by
    rcases hn : s.node u with ⟨pc, mem⟩
    rw [hn] at hw
    simp only [program, hn] at hcall
    cases pc with
    | waitEnd => simp [onRecv, hcmd]
    | sendStart | sendRspId => cases hcall
    | _ => exact hw.elim
  simp only [program, Net.setChan_node, Net.setNode_node, Function.update_self]
  rw [hmem, hsrc, hdst]
  exact link_knows_left hroom hy hz hxz hzx

namespace Returning

/-- The counter is with the board that reports, or ends its report. -/
theorem place (h : Returning net master masterId order top p i st s)
    (hone : OneCounter tr N l g s) {m : Msg} (hm : m ∈ s.chan v j) (hcounts : m.counts = true) :
    v = p ∧ j = i ∧ (s.node top).pc = .returned := by
  rcases h.away with hpc | ⟨k, rest, -, hpc⟩
  · obtain ⟨l', c, hlist, hcmd, -⟩ := h.report
    have hc : c ∈ s.chan p i := by
      have hmem : c ∈ s.chan p i ++ unsent (s.node top) := by simp [hlist]
      simpa [unsent, hpc] using hmem
    have hport := (hone.tokens.eq_port hm hcounts).symm.trans
      (hone.tokens.eq_port hc (by simp [Msg.counts, hcmd]))
    obtain ⟨rfl, rfl⟩ := Place.port.inj hport
    exact ⟨rfl, rfl, hpc⟩
  · have hfalse := counts_eq_false hone (u := top) (by rw [hpc]; trivial) hm
    simp [hcounts] at hfalse

/-- When the end of the report is read, everything before it has been. -/
theorem last_of_counts (h : Returning net master masterId order top p i st s)
    (hone : OneCounter tr N l g s) {m : Msg} {q : List Msg} (hchan : s.chan p i = m :: q)
    (hcounts : m.counts = true) :
    m.command = .endTopology ∧ m.srcNode + 1 = masterId + order.length ∧
      Covered net master masterId order s (p :: st.nodes) [] := by
  obtain ⟨-, -, hpc⟩ := h.place hone (v := p) (j := i) (m := m) (by simp [hchan]) hcounts
  obtain ⟨l', c, hlist, hcmd, hnext, hcovered⟩ := h.report
  simp only [unsent, hpc, List.append_nil, hchan] at hlist
  have hle : (s.chan p i).countP Msg.counts ≤ 1 := by
    have hle := hone.tokens p i
    split at hle <;> omega
  cases l' with
  | nil =>
      obtain ⟨rfl, -⟩ := List.cons.inj hlist
      exact ⟨hcmd, hnext, hcovered⟩
  | cons m' l' =>
      obtain ⟨rfl, rfl⟩ : m = m' ∧ q = l' ++ [c] := by simpa using hlist
      have hc : c.counts = true := by simp [Msg.counts, hcmd]
      rw [hchan, List.countP_cons, List.countP_append, List.countP_singleton, hc, hcounts] at hle
      simp only [if_true] at hle
      omega

theorem other (h : Returning net master masterId order top p i st s)
    (hone : OneCounter tr N l g s) (hu : e.at ≠ top) (hkeep : KeepsIds s e)
    (hend : ∀ m, e = .received p i m → m.counts = false) (hs : step net s e = some s') :
    Returning net master masterId order top p i st s' := by
  have hend' : ∀ k m, e = .received e.at k m → e.at ∈ Stack.nodes ((p, i) :: st) →
      m.command ≠ .endTopology := by
    intro k m he _ hcmd
    have hcounts : m.counts = true := by simp [Msg.counts, hcmd]
    obtain ⟨hv, rfl, -⟩ := h.place hone (mem_chan_of_received he hs) hcounts
    rw [hv] at he
    simp [hend m he] at hcounts
  obtain ⟨hground, hstill⟩ := h.toGround.other hu hkeep hone.reports hend' hs
  have hnode := next_node_of_ne hs (Ne.symm hu)
  obtain ⟨l', c, hlist, hcmd, hnext, hcovered⟩ := h.report
  have hknows : ∀ v ∈ p :: st.nodes, ∀ y ∈ order, ∀ k < nic.interfacesNum,
      Knows masterId order (s.node v).mem.topology y k →
        ∃ v' ∈ p :: st.nodes, Knows masterId order (s'.node v').mem.topology y k :=
    fun v hv y _ k hk hknows ↦ ⟨v, hv, (hstill v hv).knows y k hk hknows⟩
  refine ⟨hground, ?_, ?_, ?_⟩
  · rw [hnode]
    exact h.away
  · rw [hnode]
    exact h.reports
  · rw [hnode]
    rcases next_chan_cases hs p i with hsame | ⟨m, rfl, hchan⟩ | ⟨k, m, -, -, hwire, -⟩
    · rw [hsame]
      exact ⟨l', c, hlist, hcmd, hnext, hcovered.mono
        (fun v hv y hy k hk hkn ↦ .inl (hknows v hv y hy k hk hkn)) fun m hm _ _ _ _ _ ↦ .inr hm⟩
    · rw [hchan] at hlist
      cases l' with
      | nil =>
          obtain ⟨rfl, -⟩ := List.cons.inj hlist
          have hfalse := hend m rfl
          simp [Msg.counts, hcmd] at hfalse
      | cons m' l' =>
          obtain ⟨rfl, hrest⟩ := List.cons.inj hlist
          refine ⟨l', c, hrest, hcmd, hnext, hcovered.mono
            (fun v hv y hy k hk hkn ↦ .inl (hknows v hv y hy k hk hkn))
            fun m' hm' hcmd' y hy hsrc _ ↦ ?_⟩
          rcases List.mem_cons.mp hm' with rfl | hm'
          · have hreports : Reports net masterId order m' := by
              have hfair := h.fair p i m' (by simp [hchan])
              simpa only [Fair, hcmd'] using hfair
            obtain ⟨⟨_, hwaits⟩, -⟩ := h.toGround.waits (w := p) (by simp)
            exact .inl ⟨p, by simp, knows_of_received hwaits h.room hcmd' hreports hs hy hsrc⟩
          · exact .inr hm'
    · obtain ⟨⟨j, hwire'⟩, -⟩ := h.linked
      have heq := (net.wire_eq_iff (net.symm hwire') e.at k).mp hwire
      exact absurd heq.1 hu

theorem running (h : Returning net master masterId order top p i st s) (ret : AxiomRet)
    (last : ℕ) : (s.node master).pc ≠ .masterReturned ret last := by
  refine h.toGround.not_masterReturned (fun hpc ↦ ?_) master
  rcases h.away with hpc' | ⟨k, rest, -, hpc'⟩
  · exact absurd (hpc.symm.trans hpc') (by simp)
  · exact absurd (hpc.symm.trans hpc') (by simp)

theorem ground_back (h : Returning net master masterId order top p i st s)
    (hone : OneCounter tr N l g s) {m : Msg} (hkeep : KeepsIds s (.received p i m))
    (hpc : (s.node top).pc = .returned) (hs : step net s (.received p i m) = some s') :
    Ground net master masterId order p st s' := by
  obtain ⟨hwire, hp, hlt, hlinked⟩ := h.linked
  have hnode : ∀ w, w ≠ p → s'.node w = s.node w := fun w hw ↦ next_node_of_ne hs hw
  refine ⟨h.nodup, h.head, h.room, hp, hlinked, ?_, fun w hw ↦ ?_, fun v j m hm ↦ ?_,
    fun v hv j ↦ ?_, blank_step h.blank hs⟩
  · refine h.roles.2.congr fun w hw ↦ ?_
    rw [hnode w fun heq ↦ hlinked.notMem (heq ▸ hw)]
  · rw [hnode w hw]
    by_cases hwt : w = top
    · subst hwt
      refine ⟨fun hmem ↦ absurd h.top_mem hmem, fun _ _ ↦ hpc, fun k hk ↦ ?_⟩
      exact absurd (mem_nodes (List.mem_cons_of_mem _ hk)) h.linked.notMem
    · have hb := h.boards w hwt
      exact ⟨hb.idle, fun hmem hst ↦ hb.returned hmem (by simp [hw, hst]),
        fun k hk ↦ hb.waits k (List.mem_cons_of_mem _ hk)⟩
  · rcases next_mem_chan hs hm with hm | ⟨_, he, -⟩
    · exact h.fair v j m hm
    · cases he
  · exact h.quiet_step hkeep hone.reports hs (hv.imp_right (List.mem_cons_of_mem _)) j

/-- The parent takes back the counter. -/
theorem taken_back (h : Returning net master masterId order top p i st s)
    (hone : OneCounter tr N l g s) {m : Msg} (hkeep : KeepsIds s (.received p i m))
    (hcounts : m.counts = true) (hs : step net s (.received p i m) = some s') :
    Phase net master masterId s' := by
  obtain ⟨ports, q, hcall, -, hchan, hs'⟩ := next_received_iff.mp hs
  obtain ⟨hcmd, hnext, hcovered⟩ := h.last_of_counts hone hchan hcounts
  obtain ⟨-, -, hpc⟩ := h.place hone (v := p) (j := i) (m := m) (by simp [hchan]) hcounts
  have hp : p ∈ Stack.nodes ((p, i) :: st) := by simp
  obtain ⟨⟨k, hwaits⟩, hkeeper⟩ := h.toGround.waits hp
  obtain ⟨k, startNode, hpcp⟩ : ∃ k startNode, (s.node p).pc = .waitEnd k startNode := by
    have hcall' : call nic net p (s.node p) = .recv ports := hcall
    rcases hn : s.node p with ⟨pc, mem⟩
    rw [hn] at hwaits hcall'
    cases pc with
    | waitEnd k startNode => exact ⟨k, startNode, rfl⟩
    | sendStart | sendRspId => cases hcall'
    | _ => exact hwaits.elim
  have hnode : s'.node p = endTopology k startNode m.srcNode (s.node p).mem := by
    rw [hs']
    simp [program, onRecv, hpcp, hcmd]
  have hdue : ∀ j, due net s' p j = 0 := h.quiet_step hkeep hone.reports hs (.inr hp)
  simp only [endTopology] at hnode
  split at hnode
  · refine .searching ⟨h.ground_back hone hkeep hpc hs, ?_, ?_, ?_, fun j ↦ ?_,
      fun j m' hm' hcmd' x j' hwire' ↦ ?_, ?_⟩
    · rw [hnode]
      exact hnext
    · rw [hnode]
      exact h.roles.1
    · rw [hnode]
      exact ⟨hkeeper.id, hkeeper.sound, hkeeper.mutual_⟩
    · rw [hdue j]
      exact Nat.zero_le _
    · have hrsp := isRsp_eq_false (hdue j) hwire' hm'
      simp [Msg.isRsp, hcmd'] at hrsp
    · refine hcovered.mono (fun v hv y _ j _ hknows ↦ .inl ⟨v, hv, ?_⟩) (by simp)
      by_cases hvp : v = p
      · subst hvp
        rwa [hnode]
      · rwa [next_node_of_ne hs hvp]
  · -- the route to the subtree never ends
    refine .lost (lost_of_received hone hcounts h.running hs ?_)
    rw [hnode]
    exact id

/-- The board sends the next message of its report. -/
theorem sent (h : Returning net master masterId order top p i st s)
    (hone : OneCounter tr N l g s) {rest : List Msg} (hwire : net.wire p i = some (top, j))
    (hpc : (s.node top).pc = .report j rest) (hs : step net s (.sent top) = some s') :
    Returning net master masterId order top p i st s' := by
  obtain ⟨m, hcall, hunsent, hpc'⟩ := call_report net top hpc
  have hnode : s'.node top = onSent nic (s.node top) := by
    obtain ⟨_, _, -, rfl⟩ := next_sent_iff.mp hs
    simp [program]
  have hfair : ∀ k m v j, call nic net top (s.node top) = .send k m →
      net.wire top k = some (v, j) → Fair net masterId order v j m := by
    intro k m' v j' hcall' _
    obtain ⟨rfl, rfl⟩ := Call.send.inj (hcall.symm.trans hcall')
    have hm : m ∈ unsent (s.node top) := by simp [hunsent]
    by_cases hcmd : m.command = .topology
    · simp only [Fair, hcmd]
      exact h.reports m hm hcmd
    · simp only [unsent, hpc, List.mem_append, List.mem_singleton] at hm
      rcases hm with hm | rfl
      · exact absurd (hone.reports top _ _ hpc m hm) hcmd
      · trivial
  obtain ⟨l', c, hlist, hcmd, hnext, hcovered⟩ := h.report
  refine ⟨h.at_top (e := .sent top) rfl trivial hone.reports hfair hs, ?_, ?_, l', c, ?_, hcmd,
    hnext, ?_⟩
  · rw [hnode]
    rcases hpc' with hpc' | ⟨rest', hpc'⟩
    · exact .inl hpc'
    · exact .inr ⟨j, rest', hwire, hpc'⟩
  · intro m' hm'
    rw [hnode] at hm'
    exact h.reports m' (by simp [hunsent, hm'])
  · rw [next_sent_chan hs hcall (net.symm hwire), hnode, ← hlist, hunsent]
    simp
  · refine hcovered.mono (fun v hv y _ k _ hknows ↦ .inl ⟨v, hv, ?_⟩) fun m hm _ _ _ _ _ ↦ .inr hm
    rwa [next_node_of_ne hs (h.ne_top hv)]

/-- A report that breaks off loses the counter. -/
theorem breaks_off (h : Returning net master masterId order top p i st s)
    (hone : OneCounter tr N l g s) {rest : List Msg} (hpc : (s.node top).pc = .report j rest)
    (hs : step net s (.sendError top) = some s') : Lost master s' := by
  have hcount : (s.node top).pc.Counting := by
    rw [hpc]
    trivial
  have hpc' : (s'.node top).pc = .listen := by
    obtain ⟨-, rfl⟩ := next_sendError_iff.mp hs
    simp [program, onSendError, hpc]
  refine ⟨fun w hc ↦ ?_, fun v k m hm ↦ ?_, fun ret last hret ↦ ?_⟩
  · by_cases hw : w = top
    · rw [hw, hpc'] at hc
      exact hc
    · rw [next_node_of_ne hs hw] at hc
      exact hw (hone.eq_of_counting hcount hc)
  · rcases next_mem_chan hs hm with hm | ⟨_, he, -⟩
    · exact counts_eq_false hone hcount hm
    · cases he
  · by_cases hw : master = top
    · rw [hw, hpc'] at hret
      cases hret
    · rw [next_node_of_ne hs hw] at hret
      exact h.running ret last hret

theorem step (h : Returning net master masterId order top p i st s)
    (hone : OneCounter tr N l g s) (hkeep : KeepsIds s e) (hs : step net s e = some s') :
    Phase net master masterId s' := by
  by_cases hu : e.at = top
  · subst hu
    rcases h.away with hpc | ⟨j, rest, hwire, hpc⟩
    · refine absurd ?_ (next_not_halted hs)
      change call nic net e.at (s.node e.at) = .halted
      simp [call, hpc]
    · obtain ⟨m, hcall, -⟩ := call_report net e.at hpc
      rcases next_of_send hs hcall with he | he
      · rw [he] at hs
        exact .returning (h.sent hone hwire hpc hs)
      · rw [he] at hs
        exact .lost (h.breaks_off hone hpc hs)
  · by_cases hend : ∃ m, e = .received p i m ∧ m.counts = true
    · obtain ⟨m, rfl, hcounts⟩ := hend
      exact h.taken_back hone hkeep hcounts hs
    · refine .returning (h.other hone hu hkeep (fun m he ↦ ?_) hs)
      by_contra hne
      exact hend ⟨m, he, by simpa using hne⟩

end Returning

/-! ## Whole runs -/

omit [DecidableEq V] in
theorem due_eq_zero (hchan : ∀ v j, s.chan v j = []) (hans : ∀ w, (s.node w).pc.answers = none)
    (v : V) (j : ℕ) : due net s v j = 0 := by
  cases hwire : net.wire v j with
  | none => simp [due, hwire]
  | some q => simp [due, hwire, hchan, hans]

theorem searching_init (hroom : masterId < 255) :
    Searching net master masterId [master] master [] (init nic master masterId boot) := by
  have hlisten : ∀ w, w ≠ master → ((init nic master masterId boot).node w).pc = .listen :=
    fun w hw ↦ by simp [init, hw]
  have hmaster : (init nic master masterId boot).node master =
      axiomMasterNodeDiscovery nic masterId (boot master) := by simp [init]
  have hpoll : ((init nic master masterId boot).node master).pc = .poll 0 := by
    rw [hmaster]
    rfl
  have hpc : ∀ w, ((init nic master masterId boot).node w).pc = .poll 0 ∨
      ((init nic master masterId boot).node w).pc = .listen := by
    intro w
    by_cases hw : w = master
    · exact .inl (hw ▸ hpoll)
    · exact .inr (hlisten w hw)
  have hdue : ∀ v j, due net (init nic master masterId boot) v j = 0 :=
    due_eq_zero (fun _ _ ↦ rfl) fun w ↦ by rcases hpc w with h | h <;> rw [h] <;> rfl
  refine ⟨⟨by simp, rfl, by simpa using hroom, by simp, rfl, trivial, fun w hw ↦ ?_,
    fun _ _ _ hm ↦ ?_, fun v _ j ↦ hdue v j, fun w ↦ ?_⟩, ?_, ?_, ?_, fun j ↦ ?_,
    fun _ _ hm ↦ ?_, fun x hx hne ↦ ?_⟩
  · refine ⟨fun _ ↦ ?_, fun hmem ↦ absurd (List.mem_singleton.mp hmem) hw, fun _ hk ↦ ?_⟩
    · rw [hlisten w hw]
      trivial
    · cases hk
  · cases hm
  · rcases hpc w with h | h <;> simp [Blank, h]
  · rw [hmaster]
    rfl
  · rw [hmaster]
    rfl
  · rw [hmaster]
    exact ⟨by simp [axiomMasterNodeDiscovery, discoverPhase, ident], sound_init, mutual_init⟩
  · rw [hdue]
    exact Nat.zero_le _
  · cases hm
  · exact absurd (List.mem_singleton.mp hx) hne

theorem Phase.step (h : Phase net master masterId s) (hone : OneCounter tr N l g s)
    (hkeep : KeepsIds s e) (hs : step net s e = some s') : Phase net master masterId s' := by
  cases h with
  | searching h => exact h.step hone hkeep hs
  | entering h => exact h.step hone hkeep hs
  | returning h => exact h.step hone hkeep hs
  | finished h => exact .finished (h.step hs)
  | lost h => exact .lost (h.step hkeep.keepsCounter hs)

theorem Phase.exec (hroom : masterId < 255)
    (h : Exec (Discovery.step net) (init nic master masterId boot) tr s)
    (hkeep : Meets KeepsIds tr) : Phase net master masterId s := by
  have hinv : (∃ N l g, OneCounter tr N l g s) ∧ Phase net master masterId s := by
    refine Exec.trace_invariant (I := fun tr s ↦ (∃ N l g, OneCounter tr N l g s) ∧
      Phase net master masterId s) ⟨⟨_, _, _, oneCounter_init⟩,
        .searching (searching_init hroom)⟩ ?_ h hkeep
    rintro tr s e s' ⟨⟨N, l, g, hone⟩, hphase⟩ hkeep hs
    exact ⟨hone.step hkeep.keepsCounter hs, hphase.step hone hkeep hs⟩
  exact hinv.2

/-- The master only returns from a finished search. -/
theorem Phase.finished_of_returned (h : Phase net master masterId s) {ret : AxiomRet} {last : ℕ}
    (hpc : (s.node master).pc = .masterReturned ret last) :
    ∃ order, Finished net master masterId order s := by
  cases h with
  | searching h => exact absurd hpc (h.running ret last)
  | entering h => exact absurd hpc (h.running ret last)
  | returning h => exact absurd hpc (h.running ret last)
  | finished h => exact ⟨_, h⟩
  | lost h => exact absurd hpc (h.running ret last)

end AxiomApps.Discovery.Faulty
