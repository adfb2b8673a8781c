import AxiomApps.Discovery.UniqueIds

/-!
# Requests and their answers

A board that polls an interface may give up before the answer arrives, and the request
or the answer stays behind. `due` counts what there is of the polls of one interface: the
requests at the far end, the answer the far end is about to send, and the answers that
wait. Only a poll raises it, so a board that has never given up finds nothing but the
answer to its last request.
-/

namespace AxiomApps.Discovery

open FifoNet EventSystem

namespace Msg

def isReq (m : Msg) : Bool := m.command = .reqId

def isRsp (m : Msg) : Bool := m.command = .rspId ∨ m.command = .rspNoid

end Msg

/-- The interface by which the board is about to answer a request. -/
def Pc.answers : Pc → Option ℕ
  | .sendFirstRspId iface _ | .sendRspNoid iface _ | .sendRspId _ _ iface _ => some iface
  | _ => none

section Handlers

variable {nic : NicLimits} {V : Type*} {net : Network nic V} {u : V} {n : Node}

theorem answers_endPhase (m : Mem) : (endPhase nic m).pc.answers = none := by
  simp only [endPhase]
  cases m.role <;> rfl

theorem answers_endTopology (i startNode next : ℕ) (m : Mem) :
    (endTopology i startNode next m).pc.answers = none := by
  unfold endTopology
  split <;> rfl

theorem answers_onInternal (hcall : call nic net u n = .internal) :
    (onInternal nic net u n).pc.answers = none := by
  obtain ⟨pc, m⟩ := n
  cases pc with
  | poll i =>
      simp only [onInternal]
      split
      · rfl
      · exact answers_endPhase m
  | report iface rest => cases rest <;> cases hcall
  | _ => cases hcall

theorem answers_onSendError (hcall : ∃ i m, call nic net u n = .send i m) :
    (onSendError nic n).pc.answers = none := by
  obtain ⟨pc, m⟩ := n
  cases pc with
  | poll | sendSetid | sendStart => exact answers_endPhase m
  | sendFirstRspId | sendRspNoid | report | sendRspId => rfl
  | _ =>
      obtain ⟨_, _, hcall⟩ := hcall
      cases hcall

theorem answers_onRecvError : (onRecvError nic n).pc.answers = n.pc.answers ∨
    (onRecvError nic n).pc.answers = none := by
  obtain ⟨pc, m⟩ := n
  cases pc with
  | waitRsp i => exact .inr (answers_endPhase m)
  | _ => exact .inl rfl

/-- A board that reads a message is not answering, and afterwards it answers nothing but
a request it has just read. -/
theorem answers_onRecv {ports : ℕ → Bool} (iface : ℕ) (m : Msg)
    (hcall : call nic net u n = .recv ports) :
    (onRecv nic iface m n).pc.answers = none ∨
      (m.isReq = true ∧ (onRecv nic iface m n).pc.answers = some iface) := by
  obtain ⟨pc, mem⟩ := n
  cases pc with
  | listen =>
      by_cases hcmd : m.command = .reqId
      · exact .inr ⟨by simp [Msg.isReq, hcmd],
          by simp [onRecv, hcmd, axiomSlaveNodeDiscovery, Pc.answers]⟩
      · exact .inl (by simp [onRecv, hcmd, Pc.answers])
  | waitSetid =>
      by_cases hcmd : m.command = .setid <;> exact .inl (by simp [onRecv, hcmd, Pc.answers])
  | waitStart =>
      by_cases hcmd : m.command = .start <;>
        exact .inl (by simp [onRecv, hcmd, discoverPhase, Pc.answers])
  | waitRsp i =>
      refine .inl ?_
      cases hcmd : m.command with
      | rspId | rspNoid => simp [onRecv, hcmd, Pc.answers]
      | _ =>
          simp only [onRecv, hcmd]
          exact answers_endPhase mem
  | waitEnd i startNode =>
      cases hcmd : m.command with
      | reqId =>
          exact .inr ⟨by simp [Msg.isReq, hcmd], by simp [onRecv, hcmd, Pc.answers]⟩
      | endTopology =>
          refine .inl ?_
          simp only [onRecv, hcmd]
          exact answers_endTopology _ _ _ _
      | _ => exact .inl (by simp [onRecv, hcmd, Pc.answers])
  | poll i =>
      simp only [call] at hcall
      split at hcall <;> cases hcall
  | report iface rest => cases rest <;> cases hcall
  | _ => cases hcall

/-- Sending, a board polls, answers, or does neither. -/
theorem onSent_polls {i : ℕ} {m : Msg} (hcall : call nic net u n = .send i m)
    (hreport : ∀ iface rest, n.pc = .report iface rest → ∀ m ∈ rest, m.command = .topology) :
    (onSent nic n).pc.answers = none ∧
      ((n.pc = .poll i ∧ m.isRsp = false) ∨ (m.isReq = false ∧ n.pc.answers = some i) ∨
        (m.isReq = false ∧ m.isRsp = false)) := by
  obtain ⟨pc, mem⟩ := n
  cases pc with
  | sendFirstRspId | sendRspNoid | sendRspId =>
      cases hcall
      exact ⟨rfl, .inr (.inl ⟨by simp [Msg.isReq], rfl⟩)⟩
  | poll k =>
      simp only [call] at hcall
      split at hcall
      · cases hcall
        exact ⟨rfl, .inl ⟨rfl, by simp [Msg.isRsp]⟩⟩
      · cases hcall
  | sendSetid | sendStart =>
      cases hcall
      exact ⟨rfl, .inr (.inr ⟨by simp [Msg.isReq], by simp [Msg.isRsp]⟩)⟩
  | report iface rest =>
      cases rest with
      | nil =>
          cases hcall
          exact ⟨rfl, .inr (.inr ⟨by simp [Msg.isReq], by simp [Msg.isRsp]⟩)⟩
      | cons m' rest =>
          cases hcall
          have hcmd := hreport i (m :: rest) rfl m (by simp)
          exact ⟨rfl, .inr (.inr ⟨by simp [Msg.isReq, hcmd], by simp [Msg.isRsp, hcmd]⟩)⟩
  | _ => cases hcall

end Handlers

variable {nic : NicLimits} {V : Type*} [DecidableEq V]

/-- What there is of the polls of interface `j` of `v`. -/
def due (net : Network nic V) (s : State V) (v : V) (j : ℕ) : ℕ :=
  match net.wire v j with
  | none => 0
  | some (x, k) =>
      (s.chan x k).countP Msg.isReq + (if (s.node x).pc.answers = some k then 1 else 0) +
        (s.chan v j).countP Msg.isRsp

variable {net : Network nic V} {s s' : State V} {e : Event V ℕ Msg} {v u x : V} {j k i : ℕ}

omit [DecidableEq V] in
theorem due_of_wire (hwire : net.wire v j = some (x, k)) :
    due net s v j = (s.chan x k).countP Msg.isReq +
      (if (s.node x).pc.answers = some k then 1 else 0) + (s.chan v j).countP Msg.isRsp := by
  simp only [due, hwire]

theorem due_setNode {n : Node} (hn : n.pc.answers = (s.node u).pc.answers ∨ n.pc.answers = none) :
    due net (s.setNode u n) v j ≤ due net s v j := by
  cases hwire : net.wire v j with
  | none => simp [due, hwire]
  | some p =>
      obtain ⟨x, k⟩ := p
      rw [due_of_wire hwire, due_of_wire hwire, Net.setNode_chan, Net.setNode_node]
      by_cases hx : x = u
      · subst hx
        rw [Function.update_self]
        rcases hn with hn | hn
        · rw [hn]
        · rw [hn]
          simp only [reduceCtorEq, if_false]
          omega
      · rw [Function.update_of_ne hx]

theorem due_sent (hs : step net s (.sent u) = some s')
    (hreport : ∀ iface rest, (s.node u).pc = .report iface rest →
      ∀ m ∈ rest, m.command = .topology) :
    due net s' v j ≤ due net s v j + if v = u ∧ (s.node u).pc = .poll j then 1 else 0 := by
  obtain ⟨i, m, hcall, rfl⟩ := next_sent_iff.mp hs
  cases hwire : net.wire v j with
  | none => simp [due, hwire]
  | some p =>
      obtain ⟨x, k⟩ := p
      obtain ⟨hnone, hkind⟩ := onSent_polls hcall hreport
      have hnone' : ((program nic net u).onSent (s.node u)).pc.answers = none := hnone
      rw [due_of_wire hwire, due_of_wire hwire, Net.countP_put_chan, Net.countP_put_chan,
        Net.put_node, Net.setNode_node, Net.setNode_chan]
      simp only [net.wire_eq_iff hwire, net.wire_eq_iff (net.symm hwire)]
      have hself : (if (Function.update s.node u ((program nic net u).onSent (s.node u))
            x).pc.answers = some k then 1 else 0) +
            (if u = x ∧ (s.node x).pc.answers = some k then 1 else 0) ≤
          if (s.node x).pc.answers = some k then 1 else 0 := by
        by_cases hx : x = u
        · subst hx
          simp [hnone']
        · simp [hx, Ne.symm hx]
      rcases hkind with ⟨hpoll, hrsp⟩ | ⟨hreq, hans⟩ | ⟨hreq, hrsp⟩
      · by_cases hv : u = v ∧ i = j
        · obtain ⟨rfl, rfl⟩ := hv
          simp only [hpoll, hrsp, and_self, if_true, Bool.false_eq_true, and_false, if_false]
          split_ifs at hself ⊢ <;> omega
        · simp only [hv, hrsp, false_and, Bool.false_eq_true, and_false, if_false]
          omega
      · by_cases hx : u = x ∧ i = k
        · obtain ⟨rfl, rfl⟩ := hx
          simp only [hans, and_self, if_true] at hself
          simp only [hreq, Bool.false_eq_true, and_false, if_false, hans, if_true]
          split_ifs at hself ⊢ <;> omega
        · simp only [hreq, hx, false_and, Bool.false_eq_true, and_false, if_false]
          omega
      · simp only [hreq, hrsp, Bool.false_eq_true, and_false, if_false]
        omega

theorem due_received {m : Msg} (hwire : net.wire v j = some (x, k))
    (hs : step net s (.received u i m) = some s') :
    due net s' v j + (if u = v ∧ i = j ∧ m.isRsp = true then 1 else 0) ≤ due net s v j := by
  obtain ⟨ports, q, hcall, -, hchan, rfl⟩ := next_received_iff.mp hs
  have hchan' : ∀ p w l, (((s.setNode u ((program nic net u).onRecv i m (s.node u))).setChan u i
      q).chan w l).countP p + (if w = u ∧ l = i ∧ p m = true then 1 else 0) =
        (s.chan w l).countP p := by
    intro p w l
    rw [Net.setChan_chan]
    by_cases hw : w = u ∧ l = i
    · obtain ⟨rfl, rfl⟩ := hw
      simp [hchan, List.countP_cons]
    · have hw' : ¬ (w = u ∧ l = i ∧ p m = true) := fun h ↦ hw ⟨h.1, h.2.1⟩
      simp [hw, hw']
  have hreq := hchan' Msg.isReq x k
  have hrsp := hchan' Msg.isRsp v j
  rw [due_of_wire hwire, due_of_wire hwire, Net.setChan_node, Net.setNode_node]
  have hans : (if (Function.update s.node u ((program nic net u).onRecv i m (s.node u))
      x).pc.answers = some k then 1 else 0) ≤
        (if (s.node x).pc.answers = some k then 1 else 0) +
          if x = u ∧ k = i ∧ m.isReq = true then 1 else 0 := by
    by_cases hx : x = u
    · subst hx
      rcases answers_onRecv i m hcall with hnone | ⟨hm, hsome⟩
      · have hnone' : ((program nic net x).onRecv i m (s.node x)).pc.answers = none := hnone
        simp [hnone']
      · have hsome' : ((program nic net x).onRecv i m (s.node x)).pc.answers = some i := hsome
        simp only [Function.update_self, hsome', Option.some.injEq, hm, true_and, and_true]
        split_ifs <;> omega
    · simp [hx]
  have hcomm : (if u = v ∧ i = j ∧ m.isRsp = true then 1 else 0) =
      if v = u ∧ j = i ∧ m.isRsp = true then 1 else 0 := by
    simp only [eq_comm (a := u), eq_comm (a := i)]
  omega

/-- Only a board's own polls raise what is due to it. -/
theorem due_step (hs : step net s e = some s')
    (hstray : ∀ u i m, e = .stray u i m → Unexpected (s.node u).pc m.command)
    (hreport : ∀ u iface rest, (s.node u).pc = .report iface rest →
      ∀ m ∈ rest, m.command = .topology) :
    due net s' v j ≤ due net s v j + if e.at = v ∧ (s.node v).pc = .poll j then 1 else 0 := by
  cases e with
  | internal u =>
      obtain ⟨hcall, rfl⟩ := next_internal_iff.mp hs
      exact (due_setNode (.inr (answers_onInternal hcall))).trans (Nat.le_add_right _ _)
  | sent u =>
      refine (due_sent hs (hreport u)).trans (Nat.add_le_add_left ?_ _)
      by_cases hv : v = u
      · subst hv
        simp [Event.at]
      · simp [hv]
  | sendError u =>
      obtain ⟨hcall, rfl⟩ := next_sendError_iff.mp hs
      exact (due_setNode (.inr (answers_onSendError hcall))).trans (Nat.le_add_right _ _)
  | received u i m =>
      cases hwire : net.wire v j with
      | none => simp [due, hwire]
      | some p =>
          have hle := due_received hwire hs
          omega
  | recvError u =>
      obtain ⟨-, rfl⟩ := next_recvError_iff.mp hs
      exact (due_setNode answers_onRecvError).trans (Nat.le_add_right _ _)
  | stray u i m =>
      obtain ⟨⟨ports, hcall, -⟩, rfl⟩ := next_stray_iff.mp hs
      refine (due_setNode ?_).trans (Nat.le_add_right _ _)
      rcases onRecv_unexpected i (hstray u i m rfl) hcall with hsame | ⟨k, -, hend⟩
      · exact .inl (congrArg (fun n : Node ↦ n.pc.answers) hsame)
      · exact .inr ((congrArg (fun n : Node ↦ n.pc.answers) hend).trans (answers_endPhase _))

end AxiomApps.Discovery
