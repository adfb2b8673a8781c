import AxiomApps.Discovery.Protocol
import AxiomApps.Lib.Confined

/-!
# Ids under failing calls

The counter of ids is handed from board to board: down with `AXIOM_DSCV_CMD_START`
and back with `AXIOM_DSCV_CMD_END_TOPOLOGY`. As long as there is one copy of it, no id
is given away twice, whatever calls fail. A second copy comes up when a call fails in
the loop that waits for `AXIOM_DSCV_CMD_END_TOPOLOGY`: the loop over the interfaces goes
on with the counter that was given to the child.
-/

namespace AxiomApps.Discovery

open FifoNet EventSystem

/-- The board holds the counter. -/
def Pc.Counting : Pc → Prop
  | .poll _ | .waitRsp _ | .sendSetid _ _ | .sendStart _ | .report _ _ => True
  | _ => False

namespace Msg

/-- The message hands the counter on. -/
def counts (m : Msg) : Bool := m.command = .start ∨ m.command = .endTopology

def counter (m : Msg) : ℕ := if m.command = .start then m.dstNode else m.srcNode

/-- The message gives id `k`. -/
def names (k : ℕ) (m : Msg) : Bool := m.command = .setid ∧ m.dstNode = k

end Msg

/-! ## What the handlers do to the counter -/

section Handlers

variable {nic : NicLimits} {V : Type*} {net : Network nic V} {u : V} {n : Node}

theorem command_of_mem_topologyReport {t : Topology} {m : Msg} (h : m ∈ topologyReport nic t) :
    m.command = .topology := by
  obtain ⟨i, -, hi⟩ := List.mem_flatMap.mp h
  obtain ⟨j, -, hj⟩ := List.mem_filterMap.mp hi
  split at hj
  · cases hj
  · cases hj
    rfl

/-- A board after a step at which it gets no counter: if it holds one, it held it before
and has not changed it. -/
structure Keeps (n n' : Node) : Prop where
  counting : n'.pc.Counting → n.pc.Counting ∧ n'.mem.nextId = n.mem.nextId
  setid : ∀ i peerIf, n'.pc ≠ .sendSetid i peerIf
  report : ∀ iface rest, n'.pc = .report iface rest →
    n.pc = .report iface rest ∨ (∀ m ∈ rest, m.command = .topology) ∨
      ∃ m, n.pc = .report iface (m :: rest)

theorem keeps_of_idle {n' : Node} (h : ¬ n'.pc.Counting) : Keeps n n' := by
  refine ⟨fun hc ↦ absurd hc h, fun i peerIf hpc ↦ h ?_, fun iface rest hpc ↦ absurd ?_ h⟩
  · rw [hpc]
    trivial
  · rw [hpc]
    trivial

theorem keeps_endPhase (h : n.pc.Counting) : Keeps n (endPhase nic n.mem) := by
  refine ⟨fun _ ↦ ⟨h, rfl⟩, fun i peerIf hpc ↦ ?_, fun iface rest hpc ↦ ?_⟩
  · simp only [endPhase] at hpc
    split at hpc <;> cases hpc
  · simp only [endPhase] at hpc
    split at hpc
    · cases hpc
    · cases hpc
      exact .inr (.inl fun m ↦ command_of_mem_topologyReport)

theorem keeps_poll {m : Mem} {i : ℕ} (h : n.pc.Counting) (hnext : m.nextId = n.mem.nextId) :
    Keeps n ⟨.poll i, m⟩ :=
  ⟨fun _ ↦ ⟨h, hnext⟩, by simp, by simp⟩

theorem keeps_onInternal (hcall : call nic net u n = .internal) :
    Keeps n (onInternal nic net u n) := by
  obtain ⟨pc, m⟩ := n
  cases pc with
  | poll i =>
      simp only [onInternal]
      split
      · exact keeps_poll trivial rfl
      · exact keeps_endPhase (n := ⟨.poll i, m⟩) trivial
  | report iface rest => cases rest <;> cases hcall
  | _ => cases hcall

theorem keeps_onSendError
    (hkeep : ∀ i startNode iface peer, n.pc ≠ .sendRspId i startNode iface peer)
    (hcall : ∃ i m, call nic net u n = .send i m) :
    Keeps n (onSendError nic n) := by
  obtain ⟨pc, m⟩ := n
  cases pc with
  | poll i => exact keeps_endPhase (n := ⟨.poll i, m⟩) trivial
  | sendSetid i peerIf => exact keeps_endPhase (n := ⟨.sendSetid i peerIf, m⟩) trivial
  | sendStart i => exact keeps_endPhase (n := ⟨.sendStart i, m⟩) trivial
  | sendRspId i startNode iface peer => exact absurd rfl (hkeep i startNode iface peer)
  | sendFirstRspId | sendRspNoid | report => exact keeps_of_idle id
  | _ =>
      obtain ⟨_, _, hcall⟩ := hcall
      cases hcall

theorem keeps_onRecvError (hkeep : ∀ i startNode, n.pc ≠ .waitEnd i startNode)
    (hcall : ∃ ports, call nic net u n = .recv ports) : Keeps n (onRecvError nic n) := by
  obtain ⟨pc, m⟩ := n
  cases pc with
  | waitRsp i => exact keeps_endPhase (n := ⟨.waitRsp i, m⟩) trivial
  | waitEnd i startNode => exact absurd rfl (hkeep i startNode)
  | listen | waitSetid | waitStart => exact keeps_of_idle id
  | poll i =>
      obtain ⟨_, hcall⟩ := hcall
      simp only [call] at hcall
      split at hcall <;> cases hcall
  | report iface rest =>
      obtain ⟨_, hcall⟩ := hcall
      cases rest <;> cases hcall
  | _ =>
      obtain ⟨_, hcall⟩ := hcall
      cases hcall

/-- Reading a message a board gets the counter, raises it, or leaves it alone. -/
theorem onRecv_cases {ports : ℕ → Bool} (iface : ℕ) (m : Msg)
    (hcall : call nic net u n = .recv ports) :
    Keeps n (onRecv nic iface m n) ∨
      (m.counts = true ∧ ¬ n.pc.Counting ∧ (∀ i, n.pc ≠ .waitRsp i) ∧ n.pc ≠ .waitSetid ∧
        (onRecv nic iface m n).mem.nextId = m.counter ∧
        (∀ i peerIf, (onRecv nic iface m n).pc ≠ .sendSetid i peerIf) ∧
        ∀ j rest, (onRecv nic iface m n).pc ≠ .report j rest) ∨
      ∃ i, n.pc = .waitRsp i ∧ m.command = .rspNoid ∧
        onRecv nic iface m n =
          ⟨.sendSetid i m.srcIf, { n.mem with nextId := (n.mem.nextId + 1) % 256 }⟩ := by
  obtain ⟨pc, mem⟩ := n
  cases pc with
  | listen =>
      by_cases hcmd : m.command = .reqId
      · refine .inl (keeps_of_idle ?_)
        simp [onRecv, hcmd, axiomSlaveNodeDiscovery, Pc.Counting]
      · refine .inl (keeps_of_idle ?_)
        simp [onRecv, hcmd, Pc.Counting]
  | waitSetid =>
      by_cases hcmd : m.command = .setid
      · refine .inl (keeps_of_idle ?_)
        simp [onRecv, hcmd, Pc.Counting]
      · refine .inl (keeps_of_idle ?_)
        simp [onRecv, hcmd, Pc.Counting]
  | waitStart =>
      by_cases hcmd : m.command = .start
      · refine .inr (.inl ⟨by simp [Msg.counts, hcmd], id, by simp, by simp, ?_, ?_, ?_⟩)
        · simp [onRecv, hcmd, discoverPhase, Msg.counter]
        · simp [onRecv, hcmd, discoverPhase]
        · simp [onRecv, hcmd, discoverPhase]
      · refine .inl (keeps_of_idle ?_)
        simp [onRecv, hcmd, Pc.Counting]
  | waitRsp i =>
      cases hcmd : m.command with
      | rspNoid => exact .inr (.inr ⟨i, rfl, rfl, by simp [onRecv, hcmd]⟩)
      | rspId =>
          refine .inl ?_
          simp only [onRecv, hcmd]
          exact keeps_poll trivial rfl
      | _ =>
          refine .inl ?_
          simp only [onRecv, hcmd]
          exact keeps_endPhase (n := ⟨.waitRsp i, mem⟩) trivial
  | waitEnd i startNode =>
      cases hcmd : m.command with
      | endTopology =>
          refine .inr (.inl ⟨by simp [Msg.counts, hcmd], id, by simp, by simp, ?_, ?_, ?_⟩)
          · simp only [onRecv, hcmd, endTopology, Msg.counter]
            split <;> rfl
          · intro i peerIf hpc
            simp only [onRecv, hcmd, endTopology] at hpc
            split at hpc <;> cases hpc
          · intro j rest hpc
            simp only [onRecv, hcmd, endTopology] at hpc
            split at hpc <;> cases hpc
      | _ =>
          refine .inl (keeps_of_idle ?_)
          simp [onRecv, hcmd, Pc.Counting]
  | poll i =>
      simp only [call] at hcall
      split at hcall <;> cases hcall
  | report iface rest => cases rest <;> cases hcall
  | _ => cases hcall

/-- A message with an unexpected command changes nothing, or ends the phase. -/
theorem onRecv_unexpected {ports : ℕ → Bool} (iface : ℕ) {m : Msg}
    (hcmd : Unexpected n.pc m.command) (hcall : call nic net u n = .recv ports) :
    onRecv nic iface m n = n ∨
      ∃ i, n.pc = .waitRsp i ∧ onRecv nic iface m n = endPhase nic n.mem := by
  obtain ⟨pc, mem⟩ := n
  cases pc with
  | listen => exact .inl (if_neg hcmd)
  | waitSetid => exact .inl (if_neg hcmd)
  | waitStart => exact .inl (if_neg hcmd)
  | waitRsp i =>
      refine .inr ⟨i, rfl, ?_⟩
      cases hm : m.command with
      | rspId => exact absurd hm hcmd.1
      | rspNoid => exact absurd hm hcmd.2
      | _ => simp only [onRecv, hm]
  | waitEnd i startNode =>
      refine .inl ?_
      cases hm : m.command with
      | reqId => exact absurd hm hcmd.1
      | topology => exact absurd hm hcmd.2.1
      | endTopology => exact absurd hm hcmd.2.2
      | _ => simp only [onRecv, hm]
  | poll i =>
      simp only [call] at hcall
      split at hcall <;> cases hcall
  | report iface rest => cases rest <;> cases hcall
  | _ => cases hcall

theorem keeps_unexpected {ports : ℕ → Bool} (iface : ℕ) {m : Msg}
    (hcmd : Unexpected n.pc m.command) (hcall : call nic net u n = .recv ports) :
    Keeps n (onRecv nic iface m n) := by
  rcases onRecv_unexpected iface hcmd hcall with hsame | ⟨i, hpc, hend⟩
  · rw [hsame]
    refine ⟨fun hc ↦ ⟨hc, rfl⟩, fun i peerIf hpc ↦ ?_, fun iface rest hpc ↦ .inl hpc⟩
    obtain ⟨pc, mem⟩ := n
    subst hpc
    cases hcall
  · rw [hend]
    refine keeps_endPhase ?_
    rw [hpc]
    trivial

/-- Sending, a board gives id `N`, hands the counter on, or does neither. -/
theorem onSent_cases {i : ℕ} {m : Msg} (hcall : call nic net u n = .send i m)
    (hreport : ∀ iface rest, n.pc = .report iface rest → ∀ m ∈ rest, m.command = .topology) :
    (Keeps n (onSent nic n) ∧ m.counts = false ∧ ∀ k, m.names k = false) ∨
      (∃ peerIf, n.pc = .sendSetid i peerIf ∧
        m = ⟨.setid, n.mem.nodeId, n.mem.nextId, 0, 0⟩ ∧
        (onSent nic n).pc = .sendStart i ∧ (onSent nic n).mem.nextId = n.mem.nextId) ∨
      (n.pc.Counting ∧ m.counts = true ∧ m.counter = n.mem.nextId ∧ (∀ k, m.names k = false) ∧
        ¬ (onSent nic n).pc.Counting) := by
  obtain ⟨pc, mem⟩ := n
  cases pc with
  | sendFirstRspId | sendRspNoid | sendRspId =>
      cases hcall
      exact .inl ⟨keeps_of_idle id, by simp [Msg.counts], by simp [Msg.names]⟩
  | poll k =>
      simp only [call] at hcall
      split at hcall
      · cases hcall
        exact .inl ⟨⟨fun _ ↦ ⟨trivial, rfl⟩, by simp [onSent], by simp [onSent]⟩,
          by simp [Msg.counts], by simp [Msg.names]⟩
      · cases hcall
  | sendSetid k peerIf =>
      cases hcall
      exact .inr (.inl ⟨peerIf, rfl, rfl, rfl, rfl⟩)
  | sendStart k =>
      cases hcall
      exact .inr (.inr ⟨trivial, by simp [Msg.counts], by simp [Msg.counter],
        by simp [Msg.names], id⟩)
  | report iface rest =>
      cases rest with
      | nil =>
          cases hcall
          exact .inr (.inr ⟨trivial, by simp [Msg.counts], by simp [Msg.counter],
            by simp [Msg.names], id⟩)
      | cons m' rest =>
          cases hcall
          have hcmd := hreport i (m :: rest) rfl m (by simp)
          refine .inl ⟨⟨fun _ ↦ ⟨trivial, rfl⟩, by simp [onSent], fun j r hpc ↦ ?_⟩,
            by simp [Msg.counts, hcmd], by simp [Msg.names, hcmd]⟩
          cases hpc
          exact .inr (.inr ⟨m, rfl⟩)
  | _ => cases hcall

end Handlers

variable {nic : NicLimits} {V : Type*} [DecidableEq V]

/-! ## The counter along a run -/

/-- The board is in the loop that waits for a child's topology. -/
def Pc.inWait : Pc → Bool
  | .waitEnd _ _ | .sendRspId _ _ _ _ => true
  | _ => false

def Pc.asks : Pc → Bool
  | .waitRsp _ => true
  | _ => false

/-- No call fails in the wait for a child's topology, the 8-bit counter does not wrap,
and a message nobody sent has a command the receiver does not expect. -/
def KeepsCounter (s : State V) : Event V ℕ Msg → Prop
  | .recvError u => (s.node u).pc.inWait = false
  | .sendError u => (s.node u).pc.inWait = false
  | .received u _ m =>
      (s.node u).pc.asks = true → m.command = .rspNoid → (s.node u).mem.nextId < 255
  | .stray u _ m => Unexpected (s.node u).pc m.command
  | _ => True

instance (s : State V) (e : Event V ℕ Msg) : Decidable (KeepsCounter s e) := by
  cases e <;> unfold KeepsCounter <;> infer_instance

/-- There is one counter `N`, at place `l`; the ids given out so far are at most `N`, and
each of them is in one message or has been taken by one board. -/
structure OneCounter (tr : List (State V × Event V ℕ Msg)) (N : ℕ) (l : Place V ℕ)
    (g : ℕ → Place V ℕ) (s : State V) : Prop where
  holder : ∀ u, (s.node u).pc.Counting → l = .node u ∧ (s.node u).mem.nextId = N
  tokens : Confined Msg.counts l s
  carried : ∀ v j, ∀ m ∈ s.chan v j, m.counts = true → m.counter = N
  setids : ∀ k, Confined (Msg.names k) (g k) s
  given : ∀ w k, Given tr w k → g k = .node w
  used : ∀ k, g k ≠ .nowhere → k ≤ N
  fresh : ∀ u i peerIf, (s.node u).pc = .sendSetid i peerIf → g N = .nowhere
  reports : ∀ u iface rest, (s.node u).pc = .report iface rest →
    ∀ m ∈ rest, m.command = .topology

variable {net : Network nic V} {master : V} {masterId : ℕ} {boot : V → Mem}
variable {tr tr' : List (State V × Event V ℕ Msg)} {s s' : State V} {e : Event V ℕ Msg}
variable {N : ℕ} {l : Place V ℕ} {g : ℕ → Place V ℕ} {u : V}

theorem oneCounter_init :
    OneCounter [] masterId (.node master) (fun _ ↦ .nowhere) (init nic master masterId boot) := by
  have hnode : ∀ w, w ≠ master → ((init nic master masterId boot).node w).pc = .listen :=
    fun w hw ↦ by simp [init, hw]
  have hpoll : ((init nic master masterId boot).node master).pc = .poll 0 := by
    simp [init, axiomMasterNodeDiscovery, discoverPhase]
  refine ⟨fun w hc ↦ ?_, fun _ _ ↦ Nat.zero_le _, fun _ _ m hm ↦ ?_, fun _ _ _ ↦ Nat.zero_le _,
    fun w k hg ↦ ?_, fun k hk ↦ absurd rfl hk, fun _ _ _ _ ↦ rfl, fun w iface rest hpc ↦ ?_⟩
  · by_cases hw : w = master
    · subst hw
      exact ⟨rfl, by simp [init, axiomMasterNodeDiscovery, discoverPhase]⟩
    · rw [hnode w hw] at hc
      exact hc.elim
  · cases hm
  · obtain ⟨_, _, _, hmem, -⟩ := hg
    cases hmem
  · by_cases hw : w = master
    · rw [hw, hpoll] at hpc
      cases hpc
    · rw [hnode w hw] at hpc
      cases hpc

namespace OneCounter

/-- A step that leaves the counter where it is. -/
theorem of_keeps (h : OneCounter tr N l g s) {n : Node} (hkeeps : Keeps (s.node u) n)
    (hnode : s'.node = (s.setNode u n).node) (htokens : Confined Msg.counts l s')
    (hcarried : ∀ v j, ∀ m ∈ s'.chan v j, m.counts = true → m.counter = N)
    {g' : ℕ → Place V ℕ} (hsetids : ∀ k, Confined (Msg.names k) (g' k) s')
    (hgiven : ∀ w k, Given tr' w k → g' k = .node w)
    (hused : ∀ k, g' k ≠ .nowhere → g k ≠ .nowhere) : OneCounter tr' N l g' s' := by
  refine ⟨fun w hc ↦ ?_, htokens, hcarried, hsetids, hgiven, fun k hk ↦ h.used k (hused k hk),
    fun w i peerIf hpc ↦ ?_, fun w iface rest hpc ↦ ?_⟩
  · rw [hnode] at hc ⊢
    by_cases hw : w = u
    · subst hw
      simp only [Net.setNode_node, Function.update_self] at hc ⊢
      obtain ⟨hc, hnext⟩ := hkeeps.counting hc
      rw [hnext]
      exact h.holder w hc
    · simp only [Net.setNode_node, Function.update_of_ne hw] at hc ⊢
      exact h.holder w hc
  · rw [hnode] at hpc
    by_cases hw : w = u
    · subst hw
      simp only [Net.setNode_node, Function.update_self] at hpc
      exact absurd hpc (hkeeps.setid i peerIf)
    · simp only [Net.setNode_node, Function.update_of_ne hw] at hpc
      by_contra hne
      exact hused N hne (h.fresh w i peerIf hpc)
  · rw [hnode] at hpc
    by_cases hw : w = u
    · subst hw
      simp only [Net.setNode_node, Function.update_self] at hpc
      rcases hkeeps.report iface rest hpc with hpc | hall | ⟨m, hpc⟩
      · exact h.reports w iface rest hpc
      · exact hall
      · exact fun m' hm ↦ h.reports w iface _ hpc m' (List.mem_cons_of_mem m hm)
    · simp only [Net.setNode_node, Function.update_of_ne hw] at hpc
      exact h.reports w iface rest hpc

theorem of_setNode (h : OneCounter tr N l g s) {n : Node} (hkeeps : Keeps (s.node u) n)
    (he : ∀ w i m, e ≠ .received w i m) : OneCounter (tr ++ [(s, e)]) N l g (s.setNode u n) := by
  refine h.of_keeps hkeeps rfl (h.tokens.setNode n) h.carried (fun k ↦ (h.setids k).setNode n)
    (fun w k hg ↦ ?_) fun _ ↦ id
  rcases given_snoc hg with hg | ⟨i, m, heq, -⟩
  · exact h.given w k hg
  · exact absurd heq (he w i m)

theorem eq_of_counting (h : OneCounter tr N l g s) {w : V} (hu : (s.node u).pc.Counting)
    (hw : (s.node w).pc.Counting) : w = u := by
  have heq := (h.holder w hw).1.symm.trans (h.holder u hu).1
  simpa using heq

theorem given_of_not_received (h : OneCounter tr N l g s) (he : ∀ w i m, e ≠ .received w i m)
    (w : V) (k : ℕ) (hg : Given (tr ++ [(s, e)]) w k) : g k = .node w := by
  rcases given_snoc hg with hg | ⟨i, m, heq, -⟩
  · exact h.given w k hg
  · exact absurd heq (he w i m)

theorem carried_put (h : OneCounter tr N l g s) {m : Msg} {n : Node} {dest : Option (V × ℕ)}
    (hm : m.counts = true → m.counter = N) (v : V) (j : ℕ) (m' : Msg)
    (hm' : m' ∈ ((s.setNode u n).put dest m).chan v j) (hc : m'.counts = true) :
    m'.counter = N := by
  rcases Net.mem_put_chan hm' with hm' | ⟨-, rfl⟩
  · exact h.carried v j m' hm' hc
  · exact hm hc

/-- The holder of the counter gives the id `N`, which has not been used. -/
theorem gives (h : OneCounter tr N l g s) {i peerIf nodeId : ℕ} {n : Node}
    (hpc : (s.node u).pc = .sendSetid i peerIf) (hn : n.pc = .sendStart i)
    (hnext : n.mem.nextId = (s.node u).mem.nextId) (dest : Option (V × ℕ)) :
    OneCounter (tr ++ [(s, .sent u)]) N l (Function.update g N (.ofWire dest))
      ((s.setNode u n).put dest ⟨.setid, nodeId, (s.node u).mem.nextId, 0, 0⟩) := by
  have hcount : (s.node u).pc.Counting := by
    rw [hpc]
    trivial
  obtain ⟨hl, hN⟩ := h.holder u hcount
  have hfresh := h.fresh u i peerIf hpc
  have hother : ∀ w, w ≠ u → ¬ (s.node w).pc.Counting := fun w hw hc ↦
    hw (h.eq_of_counting hcount hc)
  refine ⟨fun w hc ↦ ?_, (h.tokens.setNode n).put_of_not (by simp [Msg.counts]) _,
    h.carried_put (by simp [Msg.counts]), fun k ↦ ?_, fun w k hg ↦ ?_, fun k hk ↦ ?_,
    fun w j p hw ↦ ?_, fun w iface rest hw ↦ ?_⟩
  · rw [Net.put_node] at hc ⊢
    by_cases hw : w = u
    · subst hw
      simp only [Net.setNode_node, Function.update_self]
      exact ⟨hl, hnext.trans hN⟩
    · simp only [Net.setNode_node, Function.update_of_ne hw] at hc
      exact absurd hc (hother w hw)
  · by_cases hk : k = N
    · subst hk
      rw [Function.update_self]
      refine ((h.setids k).setNode n).put (fun v j ↦ ?_) _
      rw [hfresh]
      simp
    · rw [Function.update_of_ne hk]
      refine ((h.setids k).setNode n).put_of_not ?_ _
      simp [Msg.names, hN, Ne.symm hk]
  · have hgk := h.given_of_not_received (by simp) w k hg
    rw [Function.update_of_ne]
    · exact hgk
    · rintro rfl
      rw [hfresh] at hgk
      cases hgk
  · by_cases hkN : k = N
    · exact hkN.le
    · rw [Function.update_of_ne hkN] at hk
      exact h.used k hk
  · rw [Net.put_node] at hw
    by_cases hwu : w = u
    · subst hwu
      simp [hn] at hw
    · simp only [Net.setNode_node, Function.update_of_ne hwu] at hw
      refine absurd ?_ (hother w hwu)
      rw [hw]
      trivial
  · rw [Net.put_node] at hw
    by_cases hwu : w = u
    · subst hwu
      simp [hn] at hw
    · simp only [Net.setNode_node, Function.update_of_ne hwu] at hw
      exact h.reports w iface rest hw

theorem hands_on (h : OneCounter tr N l g s) (hcount : (s.node u).pc.Counting) {n : Node} {m : Msg}
    (hidle : ¬ n.pc.Counting) (hcounter : m.counter = (s.node u).mem.nextId)
    (hnames : ∀ k, m.names k = false) (dest : Option (V × ℕ)) :
    OneCounter (tr ++ [(s, .sent u)]) N (.ofWire dest) g ((s.setNode u n).put dest m) := by
  obtain ⟨hl, hN⟩ := h.holder u hcount
  have hnone : ∀ w, ¬ ((((s.setNode u n).put dest m).node w).pc.Counting) := by
    intro w hc
    rw [Net.put_node] at hc
    by_cases hwu : w = u
    · subst hwu
      simp only [Net.setNode_node, Function.update_self] at hc
      exact hidle hc
    · simp only [Net.setNode_node, Function.update_of_ne hwu] at hc
      exact hwu (h.eq_of_counting hcount hc)
  refine ⟨fun w hc ↦ absurd hc (hnone w), ?_, h.carried_put fun _ ↦ hcounter.trans hN,
    fun k ↦ ((h.setids k).setNode n).put_of_not (hnames k) _,
    h.given_of_not_received (by simp), h.used, fun w j p hw ↦ ?_, fun w iface rest hw ↦ ?_⟩
  · refine (h.tokens.setNode n).put (fun v j ↦ ?_) _
    rw [hl]
    simp
  · refine absurd ?_ (hnone w)
    rw [hw]
    trivial
  · refine absurd ?_ (hnone w)
    rw [hw]
    trivial

theorem sent (h : OneCounter tr N l g s) (hs : step net s (.sent u) = some s') :
    ∃ l' g', OneCounter (tr ++ [(s, .sent u)]) N l' g' s' := by
  obtain ⟨i, m, hcall, rfl⟩ := next_sent_iff.mp hs
  rcases onSent_cases hcall (h.reports u) with ⟨hkeeps, hcounts, hnames⟩ |
    ⟨peerIf, hpc, rfl, hpc', hnext⟩ | ⟨hcount, hcounts, hcounter, hnames, hidle⟩
  · refine ⟨l, g, h.of_keeps hkeeps (Net.put_node _ _ _) ?_ ?_ ?_
      (h.given_of_not_received (by simp)) fun _ ↦ id⟩
    · exact (h.tokens.setNode _).put_of_not hcounts _
    · exact h.carried_put (by simp [hcounts])
    · exact fun k ↦ ((h.setids k).setNode _).put_of_not (hnames k) _
  · exact ⟨l, _, h.gives hpc hpc' hnext _⟩
  · exact ⟨_, g, h.hands_on hcount hidle hcounter hnames _⟩

theorem takes_id (h : OneCounter tr N l g s) {i : ℕ} {m : Msg} {q : List Msg} {n : Node}
    (hchan : s.chan u i = m :: q) (hcmd : m.command = .setid) (hkeeps : Keeps (s.node u) n) :
    OneCounter (tr ++ [(s, .received u i m)]) N l (Function.update g m.dstNode (.node u))
      ((s.setNode u n).setChan u i q) := by
  have hnames : m.names m.dstNode = true := by simp [Msg.names, hcmd]
  have hplace := (h.setids m.dstNode).eq_port (m := m) (v := u) (j := i) (by simp [hchan]) hnames
  refine h.of_keeps hkeeps (Net.setChan_node _ _ _ _) ((h.tokens.setNode n).drop hchan) ?_
    (fun k ↦ ?_) (fun w k hg ↦ ?_) fun k hk ↦ ?_
  · exact fun v j m' hm ↦ h.carried v j m' (Net.mem_setChan_chan hchan hm)
  · by_cases hk : k = m.dstNode
    · subst hk
      exact ((h.setids m.dstNode).setNode n).take hnames hchan _
    · rw [Function.update_of_ne hk]
      exact ((h.setids k).setNode n).drop hchan
  · rcases given_snoc hg with hg | ⟨j, m', heq, -, -, rfl⟩
    · have hgk := h.given w k hg
      rw [Function.update_of_ne]
      · exact hgk
      · rintro rfl
        rw [hplace] at hgk
        cases hgk
    · cases heq
      rw [Function.update_self]
  · by_cases hkm : k = m.dstNode
    · rw [hkm, hplace]
      simp
    · rwa [Function.update_of_ne hkm] at hk

theorem takes_counter (h : OneCounter tr N l g s) {i : ℕ} {m : Msg} {q : List Msg} {n : Node}
    (hchan : s.chan u i = m :: q) (hcounts : m.counts = true) (hnext : n.mem.nextId = m.counter)
    (hwait : (s.node u).pc ≠ .waitSetid) (hsetid : ∀ i peerIf, n.pc ≠ .sendSetid i peerIf)
    (hreport : ∀ iface rest, n.pc ≠ .report iface rest) :
    OneCounter (tr ++ [(s, .received u i m)]) N (.node u) g ((s.setNode u n).setChan u i q) := by
  have hmem : m ∈ s.chan u i := by simp [hchan]
  have hl := h.tokens.eq_port hmem hcounts
  have hnone : ∀ w, ¬ (s.node w).pc.Counting := by
    intro w hc
    have heq := (h.holder w hc).1
    rw [hl] at heq
    cases heq
  refine ⟨fun w hc ↦ ?_, (h.tokens.setNode n).take hcounts hchan _,
    fun v j m' hm ↦ h.carried v j m' (Net.mem_setChan_chan hchan hm),
    fun k ↦ ((h.setids k).setNode n).drop hchan, fun w k hg ↦ ?_, h.used, fun w j p hw ↦ ?_,
    fun w iface rest hw ↦ ?_⟩
  · by_cases hwu : w = u
    · subst hwu
      simp only [Net.setChan_node, Net.setNode_node, Function.update_self]
      exact ⟨trivial, hnext.trans (h.carried w i m hmem hcounts)⟩
    · simp only [Net.setChan_node, Net.setNode_node, Function.update_of_ne hwu] at hc
      exact absurd hc (hnone w)
  · rcases given_snoc hg with hg | ⟨j, m', heq, hpc, -⟩
    · exact h.given w k hg
    · cases heq
      exact absurd hpc hwait
  · by_cases hwu : w = u
    · subst hwu
      simp only [Net.setChan_node, Net.setNode_node, Function.update_self] at hw
      exact absurd hw (hsetid j p)
    · simp only [Net.setChan_node, Net.setNode_node, Function.update_of_ne hwu] at hw
      exact h.fresh w j p hw
  · by_cases hwu : w = u
    · subst hwu
      simp only [Net.setChan_node, Net.setNode_node, Function.update_self] at hw
      exact absurd hw (hreport iface rest)
    · simp only [Net.setChan_node, Net.setNode_node, Function.update_of_ne hwu] at hw
      exact h.reports w iface rest hw

/-- The holder of the counter raises it for a new board. -/
theorem raises (h : OneCounter tr N l g s) {i k peerIf : ℕ} {m : Msg} {q : List Msg} {n : Node}
    (hchan : s.chan u i = m :: q) (hpc : (s.node u).pc = .waitRsp k)
    (hlt : (s.node u).mem.nextId < 255) (hn : n.pc = .sendSetid k peerIf)
    (hnext : n.mem.nextId = ((s.node u).mem.nextId + 1) % 256) :
    OneCounter (tr ++ [(s, .received u i m)]) (N + 1) l g ((s.setNode u n).setChan u i q) := by
  have hcount : (s.node u).pc.Counting := by
    rw [hpc]
    trivial
  obtain ⟨hl, hN⟩ := h.holder u hcount
  have hother : ∀ w, w ≠ u → ¬ (s.node w).pc.Counting := fun w hw hc ↦
    hw (h.eq_of_counting hcount hc)
  refine ⟨fun w hc ↦ ?_, (h.tokens.setNode n).drop hchan, fun v j m' hm hc ↦ ?_,
    fun k ↦ ((h.setids k).setNode n).drop hchan, fun w k hg ↦ ?_,
    fun k hk ↦ (h.used k hk).trans (Nat.le_succ N), fun _ _ _ _ ↦ ?_, fun w iface rest hw ↦ ?_⟩
  · by_cases hwu : w = u
    · subst hwu
      simp only [Net.setChan_node, Net.setNode_node, Function.update_self]
      refine ⟨hl, ?_⟩
      rw [hnext, hN]
      omega
    · simp only [Net.setChan_node, Net.setNode_node, Function.update_of_ne hwu] at hc
      exact absurd hc (hother w hwu)
  · have heq := h.tokens.eq_port (Net.mem_setChan_chan hchan hm) hc
    rw [hl] at heq
    cases heq
  · rcases given_snoc hg with hg | ⟨j, m', heq, hw, -⟩
    · exact h.given w k hg
    · cases heq
      exact absurd (hpc.symm.trans hw) (by simp)
  · by_contra hne
    exact absurd (h.used _ hne) (by omega)
  · by_cases hwu : w = u
    · subst hwu
      simp [hn] at hw
    · simp only [Net.setChan_node, Net.setNode_node, Function.update_of_ne hwu] at hw
      exact h.reports w iface rest hw

theorem received (h : OneCounter tr N l g s) {i : ℕ} {m : Msg}
    (hkeep : KeepsCounter s (.received u i m)) (hs : step net s (.received u i m) = some s') :
    ∃ N' l' g', OneCounter (tr ++ [(s, .received u i m)]) N' l' g' s' := by
  obtain ⟨ports, q, hcall, -, hchan, rfl⟩ := next_received_iff.mp hs
  rcases onRecv_cases i m hcall with hkeeps | ⟨hcounts, -, -, hwait, hnext, hsetid, hreport⟩ |
    ⟨k, hpc, hcmd, hn⟩
  · by_cases hid : (s.node u).pc = .waitSetid ∧ m.command = .setid
    · exact ⟨N, l, _, h.takes_id hchan hid.2 hkeeps⟩
    · refine ⟨N, l, g, h.of_keeps hkeeps (Net.setChan_node _ _ _ _)
        ((h.tokens.setNode _).drop hchan) ?_ ?_ ?_ fun _ ↦ id⟩
      · exact fun v j m' hm ↦ h.carried v j m' (Net.mem_setChan_chan hchan hm)
      · exact fun k ↦ ((h.setids k).setNode _).drop hchan
      · intro w k hg
        rcases given_snoc hg with hg | ⟨j, m', heq, hpc, hcmd, -⟩
        · exact h.given w k hg
        · cases heq
          exact absurd ⟨hpc, hcmd⟩ hid
  · exact ⟨N, .node u, g, h.takes_counter hchan hcounts hnext hwait hsetid hreport⟩
  · have hlt : (s.node u).mem.nextId < 255 := hkeep (by simp [hpc, Pc.asks]) hcmd
    exact ⟨N + 1, l, g, h.raises hchan hpc hlt (congrArg Node.pc hn)
      (congrArg (fun n : Node ↦ n.mem.nextId) hn)⟩

theorem step (h : OneCounter tr N l g s) (hkeep : KeepsCounter s e) (hs : step net s e = some s') :
    ∃ N' l' g', OneCounter (tr ++ [(s, e)]) N' l' g' s' := by
  cases e with
  | internal u =>
      obtain ⟨hcall, rfl⟩ := next_internal_iff.mp hs
      exact ⟨N, l, g, h.of_setNode (keeps_onInternal hcall) (by simp)⟩
  | sent u => exact ⟨N, h.sent hs⟩
  | sendError u =>
      obtain ⟨hcall, rfl⟩ := next_sendError_iff.mp hs
      refine ⟨N, l, g, h.of_setNode (keeps_onSendError (fun _ _ _ _ hpc ↦ ?_) hcall) (by simp)⟩
      simp [KeepsCounter, hpc, Pc.inWait] at hkeep
  | received u i m => exact h.received hkeep hs
  | recvError u =>
      obtain ⟨hcall, rfl⟩ := next_recvError_iff.mp hs
      refine ⟨N, l, g, h.of_setNode (keeps_onRecvError (fun _ _ hpc ↦ ?_) hcall) (by simp)⟩
      simp [KeepsCounter, hpc, Pc.inWait] at hkeep
  | stray u i m =>
      obtain ⟨⟨ports, hcall, -⟩, rfl⟩ := next_stray_iff.mp hs
      exact ⟨N, l, g, h.of_setNode (keeps_unexpected i hkeep hcall) (by simp)⟩

theorem exec (h : Exec (Discovery.step net) (init nic master masterId boot) tr s)
    (hkeep : Meets KeepsCounter tr) : ∃ N l g, OneCounter tr N l g s :=
  Exec.trace_invariant (I := fun tr s ↦ ∃ N l g, OneCounter tr N l g s)
    ⟨_, _, _, oneCounter_init⟩ (fun _ _ _ _ ⟨_, _, _, h⟩ hkeep hs ↦ h.step hkeep hs) h hkeep

end OneCounter

/-- When all steps of a run keep to one counter, no two boards are given the same id. -/
theorem given_unique (net : Network nic V) (master : V) (masterId : ℕ) (boot : V → Mem)
    (h : Exec (step net) (init nic master masterId boot) tr s) (hkeep : Meets KeepsCounter tr)
    {w w' : V} {k : ℕ} (hw : Given tr w k) (hw' : Given tr w' k) : w = w' := by
  obtain ⟨N, l, g, hone⟩ := OneCounter.exec h hkeep
  have heq := (hone.given w k hw).symm.trans (hone.given w' k hw')
  simpa using heq

/-- In a chain with the master third, its first child is named, and then the wait for
the answer of the second one fails. -/
def oneFailure : List (Event (Fin 4) ℕ Msg) :=
  [.sent 2, .received 1 1 ⟨.reqId, 0, 0, 0, 0⟩, .sent 1, .received 2 0 ⟨.rspNoid, 0, 0, 1, 0⟩,
    .sent 2, .received 1 1 ⟨.setid, 0, 1, 0, 0⟩, .sent 2, .received 1 1 ⟨.start, 0, 1, 0, 0⟩,
    .sent 1, .received 0 1 ⟨.reqId, 1, 0, 0, 0⟩, .recvError 1]

theorem given_unique_chain :
    ∃ tr s, Exec (step (chain 3)) (init fourIfNic 2 0 fun _ ↦ coldMem) tr s ∧
      Meets KeepsCounter tr ∧ Given tr 1 1 ∧ ∀ w, Given tr w 1 → w = 1 := by
  obtain ⟨tr, s, hexec, hkeep, hgiven⟩ : ∃ tr s,
      Exec (step (chain 3)) (init fourIfNic 2 0 fun _ ↦ coldMem) tr s ∧
        Meets KeepsCounter tr ∧ Given tr 1 1 :=
    Exec.exists_of_run oneFailure (by decide +kernel)
  exact ⟨tr, s, hexec, hkeep, hgiven, fun w hw ↦ given_unique (chain 3) 2 0 _ hexec hkeep hw hgiven⟩

/-- The master's receive fails while its first child numbers the boards behind it. -/
def orphanedChild : List (Event (Fin 4) ℕ Msg) :=
  [.sent 2, .received 1 1 ⟨.reqId, 0, 0, 0, 0⟩, .sent 1, .received 2 0 ⟨.rspNoid, 0, 0, 1, 0⟩,
    .sent 2, .sent 2, .recvError 2,
    .sent 2, .received 3 0 ⟨.reqId, 0, 0, 0, 0⟩, .sent 3, .received 2 1 ⟨.rspNoid, 0, 0, 0, 0⟩,
    .sent 2, .received 3 0 ⟨.setid, 0, 2, 0, 0⟩,
    .received 1 1 ⟨.setid, 0, 1, 0, 0⟩, .received 1 1 ⟨.start, 0, 1, 0, 0⟩,
    .sent 1, .received 0 1 ⟨.reqId, 1, 0, 0, 0⟩, .sent 0, .received 1 0 ⟨.rspNoid, 0, 1, 1, 0⟩,
    .sent 1, .received 0 1 ⟨.setid, 1, 2, 0, 0⟩]

/-- Two boards of a chain of four are given the same id. -/
theorem orphanedChild_repeats_id :
    ∃ tr s, Exec (step (chain 3)) (init fourIfNic 2 0 fun _ ↦ coldMem) tr s ∧
      Meets (fun _ e ↦ e.Genuine) tr ∧ Given tr 3 2 ∧ Given tr 0 2 := by
  exact Exec.exists_of_run orphanedChild (by decide +kernel)

end AxiomApps.Discovery
