import AxiomApps.Discovery.Polls
import AxiomApps.Discovery.Stages

/-!
# Discovery with failing calls

A failed call makes the board that polls give up, and a board that waits for its id
start over. As long as every `AXIOM_DSCV_CMD_SETID` and `AXIOM_DSCV_CMD_START` gets out
and no call fails in the wait for a child's topology, this only makes the search
smaller: either the counter is lost and the master waits for ever, or the boards with an
id are those the search has entered, and what the boards on the path to it know covers a
tree of them.
-/

namespace AxiomApps.Discovery.Faulty

open FifoNet EventSystem

/-- Where a failing call may leave an id that nobody holds. -/
def critical : Pc → Bool
  -- a board that was numbered and not started may be numbered again and take either id
  | .sendSetid _ _ | .sendStart _ | .waitEnd _ _ | .sendRspId _ _ _ _ => true
  | _ => false

variable {nic : NicLimits} {V : Type*} [DecidableEq V]

omit [DecidableEq V] in
/-- No call fails at a critical point, the ids stay below the null id, and a message
nobody sent has a command the receiver does not expect. -/
def KeepsIds (s : State V) : Event V ℕ Msg → Prop
  | .recvError u => critical (s.node u).pc = false
  | .sendError u => critical (s.node u).pc = false
  | .received u _ m =>
      (s.node u).pc.asks = true → m.command = .rspNoid → (s.node u).mem.nextId < 254
  | .stray u _ m => Unexpected (s.node u).pc m.command
  | _ => True

instance (s : State V) (e : Event V ℕ Msg) : Decidable (KeepsIds s e) :=
  match e with
  | .recvError u | .sendError u => inferInstanceAs (Decidable (critical (s.node u).pc = false))
  | .received u _ m =>
      inferInstanceAs (Decidable ((s.node u).pc.asks = true → m.command = .rspNoid →
        (s.node u).mem.nextId < 254))
  | .stray u _ m => inferInstanceAs (Decidable (Unexpected (s.node u).pc m.command))
  | .internal _ | .sent _ => inferInstanceAs (Decidable True)

omit [DecidableEq V] in
theorem KeepsIds.keepsCounter {s : State V} {e : Event V ℕ Msg} (h : KeepsIds s e) :
    KeepsCounter s e := by
  have hcrit : ∀ pc, critical pc = false → pc.inWait = false := by
    rintro (_ | _ | _ | _ | _ | _ | _ | _ | _ | _ | _ | _ | _ | _ | _ | _) hpc <;>
      first | rfl | cases hpc
  cases e with
  | recvError u => exact hcrit _ h
  | sendError u => exact hcrit _ h
  | received u i m => exact fun hasks hcmd ↦ (h hasks hcmd).trans (by decide)
  | stray u i m => exact h
  | internal u => trivial
  | sent u => trivial

/-! ## Boards off the search -/

/-- The board has no part in the search yet. -/
def Idle : Pc → Prop
  | .listen | .exited | .sendRspNoid _ _ | .waitSetid => True
  | _ => False

/-- The board has found a child behind interface `i` and waits for it, or is about to. -/
def WaitsAt (i : ℕ) : Pc → Prop
  | .waitEnd k _ | .sendRspId k _ _ _ | .sendStart k => k = i
  | _ => False

/-- The memory of a board that has answered a request is blank. -/
def Blank (n : Node) : Prop :=
  match n.pc with
  | .sendFirstRspId _ _ | .sendRspNoid _ _ | .waitSetid | .waitStart =>
      n.mem.topology = axiomTopologyInit
  | _ => True

variable (net : Network nic V) (master : V) (masterId : ℕ)

/-- The message reports two cells of links between numbered boards. -/
def Reports (order : List V) (m : Msg) : Prop :=
  ∃ x ∈ order, ∃ y ∈ order, ∃ j k,
    net.wire x m.srcIf = some (y, j) ∧ net.wire y m.dstIf = some (x, k) ∧
      m.srcNode = ident masterId order x ∧ m.dstNode = ident masterId order y

/-- What a message waiting at interface `j` of `v` says is so. -/
def Fair (order : List V) (v : V) (j : ℕ) (m : Msg) : Prop :=
  match m.command with
  | .rspId => ∃ x ∈ order, net.wire v j = some (x, m.srcIf) ∧ m.srcNode = ident masterId order x
  | .rspNoid => ∃ x, net.wire v j = some (x, m.srcIf)
  | .setid => v ∈ order ∧ m.dstNode = ident masterId order v
  | .topology => Reports net masterId order m
  | _ => True

/-- A board that waits for a child keeps its id and a sound matrix. -/
structure Keeper (order : List V) (w : V) (m : Mem) : Prop where
  id : m.nodeId = ident masterId order w
  sound : Sound net masterId order m.topology
  mutual_ : Mutual nic m.topology

/-- What holds of a board the search is not at. -/
structure Board (order : List V) (stack : Stack V) (w : V) (n : Node) : Prop where
  idle : w ∉ order → Idle n.pc
  returned : w ∈ order → w ∉ stack.nodes → n.pc = .returned
  waits : ∀ i, (w, i) ∈ stack → WaitsAt i n.pc ∧ Keeper net masterId order w n.mem

def Roles (role : V → Role) : Stack V → Prop
  | [] => True
  | (p, _) :: st => HasRole net (role p) p st ∧ Roles role st

/-- What holds in every state of the search: of its path, of the boards off it, and of
the messages that wait. -/
structure Ground (order : List V) (top : V) (stack : Stack V) (s : State V) : Prop where
  nodup : order.Nodup
  head : order.head? = some master
  room : masterId + order.length ≤ 255
  top_mem : top ∈ order
  linked : Linked net master order top stack
  roles : Roles net (fun w ↦ (s.node w).mem.role) stack
  boards : ∀ w, w ≠ top → Board net masterId order stack w (s.node w)
  fair : ∀ v j, ∀ m ∈ s.chan v j, Fair net masterId order v j m
  quiet : ∀ v, v ∉ order ∨ v ∈ stack.nodes → ∀ j, due net s v j = 0
  blank : ∀ w, Blank (s.node w)

/-- Every board but the master was entered from a board found before it, and the cell of
that link is known on the path or in one of the reports under way. -/
def Covered (order : List V) (s : State V) (path : List V) (pend : List Msg) : Prop :=
  ∀ x ∈ order, x ≠ master → ∃ y ∈ order, order.idxOf y < order.idxOf x ∧
    ∃ i j, net.wire y i = some (x, j) ∧
      ((∃ v ∈ path, Knows masterId order (s.node v).mem.topology y i) ∨
        ∃ m ∈ pend, m.command = .topology ∧ m.srcNode = ident masterId order y ∧ m.srcIf = i)

variable {net master masterId} {order : List V} {top u : V} {stack : Stack V} {s s' : State V}
variable {e : Event V ℕ Msg}

theorem blank_step (h : ∀ w, Blank (s.node w)) (hs : step net s e = some s') :
    ∀ w, Blank (s'.node w) := by
  have hend : ∀ m, Blank (endPhase nic m) := by
    intro m
    simp only [Blank, endPhase]
    cases m.role <;> trivial
  refine next_local (P := fun _ n ↦ Blank n) ?_ ?_ ?_ ?_ ?_ h hs
  · rintro u ⟨pc, m⟩ hn
    cases pc with
    | poll i =>
        change Blank (onInternal nic net u ⟨.poll i, m⟩)
        simp only [onInternal]
        split
        · trivial
        · exact hend m
    | _ => exact hn
  · rintro u ⟨pc, m⟩ hn
    cases pc with
    | report iface rest => cases rest <;> trivial
    | sendFirstRspId | poll | sendSetid | sendStart | sendRspId => trivial
    | _ => exact hn
  · rintro u ⟨pc, m⟩ hn
    cases pc with
    | poll | sendSetid | sendStart => exact hend m
    | sendFirstRspId | sendRspNoid | report | sendRspId => trivial
    | _ => exact hn
  · rintro u ⟨pc, m⟩ i msg hn
    change Blank (onRecv nic i msg ⟨pc, m⟩)
    cases pc with
    | listen =>
        by_cases hcmd : msg.command = .reqId
        · simp [onRecv, hcmd, axiomSlaveNodeDiscovery, Blank]
        · simpa [onRecv, hcmd] using hn
    | waitSetid =>
        by_cases hcmd : msg.command = .setid
        · simpa [onRecv, hcmd, Blank] using hn
        · simpa [onRecv, hcmd] using hn
    | waitStart =>
        by_cases hcmd : msg.command = .start
        · simp [onRecv, hcmd, discoverPhase, Blank]
        · simpa [onRecv, hcmd] using hn
    | waitRsp k =>
        cases hcmd : msg.command with
        | rspId | rspNoid => simp [onRecv, hcmd, Blank]
        | _ =>
            simp only [onRecv, hcmd]
            exact hend m
    | waitEnd k startNode =>
        cases hcmd : msg.command with
        | endTopology =>
            simp only [onRecv, hcmd, endTopology]
            split <;> trivial
        | _ => simp [onRecv, hcmd, Blank]
    | _ => exact hn
  · rintro u ⟨pc, m⟩ hn
    cases pc with
    | waitRsp => exact hend m
    | listen | waitSetid | waitStart | waitEnd => trivial
    | _ => exact hn

/-! ## The steps of the boards off the search -/

section Handlers

omit [DecidableEq V]

variable {n : Node} {m : Msg} {i iface : ℕ} {ports : ℕ → Bool}

theorem Idle.not_internal (h : Idle n.pc) : call nic net u n ≠ .internal := by
  obtain ⟨pc, mem⟩ := n
  cases pc <;> first | exact h.elim | simp [call]

theorem Idle.sent (h : Idle n.pc) (hcall : call nic net u n = .send i m) :
    Idle (onSent nic n).pc ∧ m.command = .rspNoid ∧ m.srcIf = i := by
  obtain ⟨pc, mem⟩ := n
  cases pc with
  | sendRspNoid iface peer =>
      cases hcall
      exact ⟨trivial, rfl, rfl⟩
  | listen | exited | waitSetid => cases hcall
  | _ => exact h.elim

theorem Idle.sendError (h : Idle n.pc) : Idle (onSendError nic n).pc := by
  obtain ⟨pc, mem⟩ := n
  cases pc <;> first | exact h.elim | trivial

theorem Idle.recvError (h : Idle n.pc) : Idle (onRecvError nic n).pc := by
  obtain ⟨pc, mem⟩ := n
  cases pc <;> first | exact h.elim | trivial

theorem Idle.recv (h : Idle n.pc) (hsetid : n.pc = .waitSetid → m.command ≠ .setid) :
    Idle (onRecv nic iface m n).pc := by
  obtain ⟨pc, mem⟩ := n
  cases pc with
  | listen =>
      by_cases hcmd : m.command = .reqId
      · simp [onRecv, hcmd, axiomSlaveNodeDiscovery, Idle]
      · simp [onRecv, hcmd, Idle]
  | waitSetid => simp [onRecv, hsetid rfl, Idle]
  | exited | sendRspNoid => exact h
  | _ => exact h.elim

theorem Idle.not_counting {pc : Pc} (h : Idle pc) : ¬ pc.Counting := by
  cases pc <;> first | exact h.elim | exact id

theorem WaitsAt.not_internal (h : WaitsAt i n.pc) : call nic net u n ≠ .internal := by
  obtain ⟨pc, mem⟩ := n
  cases pc <;> first | exact h.elim | simp [call]

theorem WaitsAt.critical (h : WaitsAt i n.pc) : critical n.pc = true := by
  obtain ⟨pc, mem⟩ := n
  cases pc <;> first | exact h.elim | rfl

/-- A waiting board answers with its id, or starts its child. -/
theorem WaitsAt.sent (h : WaitsAt i n.pc) (hcall : call nic net u n = .send iface m) :
    WaitsAt i (onSent nic n).pc ∧ (onSent nic n).mem = n.mem ∧
      ((m.command = .rspId ∧ m.srcIf = iface ∧ m.srcNode = n.mem.nodeId) ∨
        (n.pc = .sendStart i ∧ iface = i ∧ m.command = .start ∧ m.dstNode = n.mem.nextId)) := by
  obtain ⟨pc, mem⟩ := n
  cases pc with
  | sendStart k =>
      obtain rfl : k = i := h
      cases hcall
      exact ⟨rfl, rfl, .inr ⟨rfl, rfl, rfl, rfl⟩⟩
  | sendRspId k startNode iface' peer =>
      cases hcall
      exact ⟨h, rfl, .inl ⟨rfl, rfl, rfl⟩⟩
  | waitEnd => cases hcall
  | _ => exact h.elim

/-- Short of the end of the topology a waiting board goes on waiting, and only stores
what is reported. -/
theorem WaitsAt.recv (h : WaitsAt i n.pc) (hcall : call nic net u n = .recv ports)
    (hend : m.command ≠ .endTopology) :
    WaitsAt i (onRecv nic iface m n).pc ∧
      ((onRecv nic iface m n).mem = n.mem ∨ m.command = .topology ∧
        (onRecv nic iface m n).mem = { n.mem with
          topology := n.mem.topology.link nic.interfacesNum m.srcNode m.srcIf m.dstNode
            m.dstIf }) := by
  obtain ⟨pc, mem⟩ := n
  cases pc with
  | waitEnd k startNode =>
      cases hcmd : m.command with
      | reqId => exact ⟨by simpa [onRecv, hcmd, WaitsAt] using h, .inl (by simp [onRecv, hcmd])⟩
      | topology => exact ⟨by simpa [onRecv, hcmd] using h, .inr ⟨rfl, by simp [onRecv, hcmd]⟩⟩
      | endTopology => exact absurd hcmd hend
      | _ => exact ⟨by simpa [onRecv, hcmd] using h, .inl (by simp [onRecv, hcmd])⟩
  | sendStart | sendRspId => cases hcall
  | _ => exact h.elim

end Handlers

omit [DecidableEq V] in
theorem exists_mem_stack {w : V} (hw : w ∈ stack.nodes) : ∃ i, (w, i) ∈ stack := by
  obtain ⟨⟨p, i⟩, hp, rfl⟩ := List.mem_map.mp hw
  exact ⟨i, hp⟩

omit [DecidableEq V] in
theorem mem_nodes {w : V} {i : ℕ} (h : (w, i) ∈ stack) : w ∈ stack.nodes :=
  List.mem_map.mpr ⟨_, h, rfl⟩

omit [DecidableEq V] in
theorem Roles.congr {role role' : V → Role} (h : Roles net role stack)
    (heq : ∀ w ∈ stack.nodes, role' w = role w) : Roles net role' stack := by
  induction stack with
  | nil => trivial
  | cons f st ih =>
      obtain ⟨p, i⟩ := f
      obtain ⟨hp, hst⟩ := h
      refine ⟨?_, ih hst fun w hw ↦ heq w (by simp [hw])⟩
      rw [heq p (by simp)]
      exact hp

theorem Keeper.link {w : V} {m : Mem} {msg : Msg} (h : Keeper net masterId order w m)
    (hroom : masterId + order.length ≤ 255) (hmsg : Reports net masterId order msg) :
    Keeper net masterId order w { m with
      topology := m.topology.link nic.interfacesNum msg.srcNode msg.srcIf msg.dstNode msg.dstIf } ∧
    ∀ y i, i < nic.interfacesNum → Knows masterId order m.topology y i →
      Knows masterId order
        (m.topology.link nic.interfacesNum msg.srcNode msg.srcIf msg.dstNode msg.dstIf) y i := by
  obtain ⟨x, hx, y, hy, j, k, hxy, hyx, hsrc, hdst⟩ := hmsg
  rw [hsrc, hdst]
  refine ⟨⟨h.id, h.sound.link hx hy hxy hyx, h.mutual_.link h.sound hroom hx hy hxy hyx⟩, ?_⟩
  exact fun z i hi hknows ↦ link_knows_mono h.sound hx hy hxy hyx hi hknows

theorem idle_step (hidle : Idle (s.node e.at).pc) (hu : e.at ∉ order)
    (hfair : ∀ v j, ∀ m ∈ s.chan v j, Fair net masterId order v j m) (hkeep : KeepsIds s e)
    (hs : step net s e = some s') : Idle (s'.node e.at).pc := by
  cases e with
  | internal u =>
      obtain ⟨hcall, -⟩ := next_internal_iff.mp hs
      exact absurd hcall hidle.not_internal
  | sent u =>
      obtain ⟨i, m, hcall, rfl⟩ := next_sent_iff.mp hs
      simpa [Event.at, program] using (hidle.sent hcall).1
  | sendError u =>
      obtain ⟨-, rfl⟩ := next_sendError_iff.mp hs
      simpa [Event.at, program] using hidle.sendError
  | received u i m =>
      obtain ⟨ports, q, -, -, hchan, rfl⟩ := next_received_iff.mp hs
      have hrecv : Idle (onRecv nic i m (s.node u)).pc := by
        refine hidle.recv fun _ hcmd ↦ hu ?_
        -- an id only travels to a board that has been numbered
        have hm := hfair u i m (by simp [hchan])
        simp only [Fair, hcmd] at hm
        exact hm.1
      simpa [Event.at, program] using hrecv
  | recvError u =>
      obtain ⟨-, rfl⟩ := next_recvError_iff.mp hs
      simpa [Event.at, program] using hidle.recvError
  | stray u i m =>
      obtain ⟨-, rfl⟩ := next_stray_iff.mp hs
      have hrecv : Idle (onRecv nic i m (s.node u)).pc := by
        refine hidle.recv fun hpc hcmd ↦ ?_
        have hun : Unexpected (s.node u).pc m.command := hkeep
        rw [show (s.node u).pc = _ from hpc] at hun
        exact hun hcmd
      simpa [Event.at, program] using hrecv

/-- What a waiting board keeps in a step. -/
structure StillWaits (net : Network nic V) (masterId : ℕ) (order : List V) (w : V) (n n' : Node) :
    Prop where
  waits : ∀ i, WaitsAt i n.pc → WaitsAt i n'.pc
  keeper : Keeper net masterId order w n'.mem
  role : n'.mem.role = n.mem.role
  next : n'.mem.nextId = n.mem.nextId
  knows : ∀ y i, i < nic.interfacesNum → Knows masterId order n.mem.topology y i →
    Knows masterId order n'.mem.topology y i

theorem StillWaits.of_mem {w : V} {n n' : Node} (h : Keeper net masterId order w n.mem)
    (hmem : n'.mem = n.mem) (hwaits : ∀ i, WaitsAt i n.pc → WaitsAt i n'.pc) :
    StillWaits net masterId order w n n' := by
  refine ⟨hwaits, ?_, ?_, ?_, ?_⟩
  · rwa [hmem]
  · rw [hmem]
  · rw [hmem]
  · rw [hmem]
    exact fun _ _ _ h ↦ h

theorem waits_step {k : ℕ} (hw : WaitsAt k (s.node e.at).pc)
    (hkeeper : Keeper net masterId order e.at (s.node e.at).mem)
    (hroom : masterId + order.length ≤ 255)
    (hfair : ∀ v j, ∀ m ∈ s.chan v j, Fair net masterId order v j m) (hkeep : KeepsIds s e)
    (hend : ∀ i m, e = .received e.at i m → m.command ≠ .endTopology)
    (hs : step net s e = some s') :
    StillWaits net masterId order e.at (s.node e.at) (s'.node e.at) := by
  cases e with
  | internal u =>
      obtain ⟨hcall, -⟩ := next_internal_iff.mp hs
      exact absurd hcall hw.not_internal
  | sent u =>
      obtain ⟨i, m, hcall, rfl⟩ := next_sent_iff.mp hs
      refine .of_mem hkeeper ?_ fun i' hi' ↦ ?_
      · simpa [Event.at, program] using (hw.sent hcall).2.1
      · simpa [Event.at, program] using (WaitsAt.sent hi' hcall).1
  | sendError u => exact absurd (hw.critical.symm.trans hkeep) (by simp)
  | received u i m =>
      obtain ⟨ports, q, hcall, -, hchan, rfl⟩ := next_received_iff.mp hs
      have hcmd := hend i m rfl
      have hnode : (((s.setNode u ((program nic net u).onRecv i m (s.node u))).setChan u i q).node
          (Event.received u i m).at) = onRecv nic i m (s.node u) := by simp [Event.at, program]
      rw [hnode]
      change WaitsAt k (s.node u).pc at hw
      change Keeper net masterId order u (s.node u).mem at hkeeper
      change StillWaits net masterId order u (s.node u) _
      have hwaits : ∀ i', WaitsAt i' (s.node u).pc → WaitsAt i' (onRecv nic i m (s.node u)).pc :=
        fun i' hi' ↦ (hi'.recv hcall hcmd).1
      rcases (hw.recv hcall hcmd).2 with hmem | ⟨htop, hmem⟩
      · exact .of_mem hkeeper hmem hwaits
      · have hreports : Reports net masterId order m := by
          have hm := hfair u i m (by simp [hchan])
          simpa only [Fair, htop] using hm
        obtain ⟨hkeeper', hknows⟩ := hkeeper.link hroom hreports
        refine ⟨hwaits, ?_, ?_, ?_, ?_⟩
        · rw [hmem]
          exact hkeeper'
        · rw [hmem]
        · rw [hmem]
        · rw [hmem]
          exact hknows
  | recvError u => exact absurd (hw.critical.symm.trans hkeep) (by simp)
  | stray u i m =>
      obtain ⟨⟨ports, hcall, -⟩, rfl⟩ := next_stray_iff.mp hs
      have hsame : onRecv nic i m (s.node u) = s.node u := by
        rcases onRecv_unexpected i hkeep hcall with hsame | ⟨i', hpc, -⟩
        · exact hsame
        · rw [Event.at, hpc] at hw
          exact hw.elim
      have hnode : (s.setNode u ((program nic net u).onRecv i m (s.node u))).node
          (Event.stray u i m).at = s.node u := by
        simpa [Event.at, program] using hsame
      rw [hnode]
      exact .of_mem hkeeper rfl fun _ h ↦ h

namespace Ground

theorem mem_order (h : Ground net master masterId order top stack s) {w : V}
    (hw : w ∈ stack.nodes) : w ∈ order :=
  (h.linked.idxOf_lt hw).1

theorem ne_top (h : Ground net master masterId order top stack s) {w : V}
    (hw : w ∈ stack.nodes) : w ≠ top := by
  rintro rfl
  exact h.linked.notMem hw

theorem waits (h : Ground net master masterId order top stack s) {w : V}
    (hw : w ∈ stack.nodes) :
    (∃ k, WaitsAt k (s.node w).pc) ∧ Keeper net masterId order w (s.node w).mem := by
  obtain ⟨i, hi⟩ := exists_mem_stack hw
  obtain ⟨hwaits, hkeeper⟩ := (h.boards w (h.ne_top hw)).waits i hi
  exact ⟨⟨i, hwaits⟩, hkeeper⟩

theorem not_masterReturned (h : Ground net master masterId order top stack s) {ret : AxiomRet}
    {last : ℕ} (htop : (s.node top).pc ≠ .masterReturned ret last) (w : V) :
    (s.node w).pc ≠ .masterReturned ret last := by
  by_cases hw : w = top
  · rwa [hw]
  · intro hpc
    have hb := h.boards w hw
    by_cases hmem : w ∈ order
    · by_cases hstack : w ∈ stack.nodes
      · obtain ⟨⟨k, hwaits⟩, -⟩ := h.waits hstack
        rw [hpc] at hwaits
        exact hwaits
      · exact absurd (hpc.symm.trans (hb.returned hmem hstack)) (by simp)
    · have hidle := hb.idle hmem
      rw [hpc] at hidle
      exact hidle

/-- A board off the search that takes a step is idle or waits. -/
theorem other_cases (h : Ground net master masterId order top stack s) (hu : e.at ≠ top)
    (hs : step net s e = some s') :
    (e.at ∉ order ∧ Idle (s.node e.at).pc) ∨ e.at ∈ stack.nodes := by
  have hb := h.boards e.at hu
  by_cases hmem : e.at ∈ order
  · by_cases hstack : e.at ∈ stack.nodes
    · exact .inr hstack
    · have hpc := hb.returned hmem hstack
      refine absurd ?_ (next_not_halted hs)
      change call nic net e.at (s.node e.at) = .halted
      simp [call, hpc]
  · exact .inl ⟨hmem, hb.idle hmem⟩

theorem fair_sent (h : Ground net master masterId order top stack s) (hu : e.at ≠ top)
    (hs : step net s e = some s') {i : ℕ} {m : Msg}
    (hcall : call nic net e.at (s.node e.at) = .send i m) {v : V} {j : ℕ}
    (hwire : net.wire e.at i = some (v, j)) : Fair net masterId order v j m := by
  rcases h.other_cases hu hs with ⟨-, hidle⟩ | hstack
  · obtain ⟨-, hcmd, hif⟩ := hidle.sent hcall
    simp only [Fair, hcmd, hif]
    exact ⟨e.at, net.symm hwire⟩
  · obtain ⟨⟨k, hw⟩, hkeeper⟩ := h.waits hstack
    rcases (hw.sent hcall).2.2 with ⟨hcmd, hif, hsrc⟩ | ⟨-, -, hcmd, -⟩
    · simp only [Fair, hcmd, hif, hsrc]
      exact ⟨e.at, h.mem_order hstack, net.symm hwire, hkeeper.id⟩
    · simp only [Fair, hcmd]

/-- Only the board the search is at polls. -/
theorem quiet_step (h : Ground net master masterId order top stack s) (hkeep : KeepsIds s e)
    (hreport : ∀ u iface rest, (s.node u).pc = .report iface rest →
      ∀ m ∈ rest, m.command = .topology)
    (hs : step net s e = some s') {v : V} (hv : v ∉ order ∨ v ∈ stack.nodes) (j : ℕ) :
    due net s' v j = 0 := by
  have hstray : ∀ u i m, e = .stray u i m → Unexpected (s.node u).pc m.command := by
    rintro u i m rfl
    exact hkeep
  have hle := due_step (v := v) (j := j) hs hstray hreport
  have hpoll : ¬ (e.at = v ∧ (s.node v).pc = .poll j) := by
    rintro ⟨-, hpc⟩
    rcases hv with hv | hv
    · have hne : v ≠ top := fun heq ↦ hv (heq ▸ h.top_mem)
      have hidle := (h.boards v hne).idle hv
      rw [hpc] at hidle
      exact hidle
    · obtain ⟨⟨k, hwaits⟩, -⟩ := h.waits hv
      rw [hpc] at hwaits
      exact hwaits
  rw [if_neg hpoll, h.quiet v hv j] at hle
  omega

/-- The steps off the search keep the ground, unless one takes back the counter. -/
theorem other (h : Ground net master masterId order top stack s) (hu : e.at ≠ top)
    (hkeep : KeepsIds s e)
    (hreport : ∀ u iface rest, (s.node u).pc = .report iface rest →
      ∀ m ∈ rest, m.command = .topology)
    (hend : ∀ i m, e = .received e.at i m → e.at ∈ stack.nodes → m.command ≠ .endTopology)
    (hs : step net s e = some s') :
    Ground net master masterId order top stack s' ∧
      ∀ w ∈ stack.nodes, StillWaits net masterId order w (s.node w) (s'.node w) := by
  have hstill : ∀ w ∈ stack.nodes,
      StillWaits net masterId order w (s.node w) (s'.node w) := by
    intro w hw
    by_cases hwu : w = e.at
    · subst hwu
      obtain ⟨⟨k, hwaits⟩, hkeeper⟩ := h.waits hw
      exact waits_step hwaits hkeeper h.room h.fair hkeep (fun i m he ↦ hend i m he hw) hs
    · rw [next_node_of_ne hs hwu]
      exact .of_mem (h.waits hw).2 rfl fun _ h ↦ h
  refine ⟨⟨h.nodup, h.head, h.room, h.top_mem, h.linked,
    h.roles.congr fun w hw ↦ (hstill w hw).role, fun w hw ↦ ?_, fun v j m hm ↦ ?_,
    fun v hv j ↦ h.quiet_step hkeep hreport hs hv j, blank_step h.blank hs⟩, hstill⟩
  · have hb := h.boards w hw
    refine ⟨fun hmem ↦ ?_, fun hmem hstack ↦ ?_, fun i hi ↦ ?_⟩
    · by_cases hwu : w = e.at
      · subst hwu
        exact idle_step (hb.idle hmem) hmem h.fair hkeep hs
      · rw [next_node_of_ne hs hwu]
        exact hb.idle hmem
    · by_cases hwu : w = e.at
      · subst hwu
        rcases h.other_cases hu hs with ⟨hnot, -⟩ | hin
        · exact absurd hmem hnot
        · exact absurd hin hstack
      · rw [next_node_of_ne hs hwu]
        exact hb.returned hmem hstack
    · have hw' := hstill w (mem_nodes hi)
      exact ⟨hw'.waits i (hb.waits i hi).1, hw'.keeper⟩
  · rcases next_mem_chan hs hm with hm | ⟨i, -, hcall, hwire⟩
    · exact h.fair v j m hm
    · exact h.fair_sent hu hs hcall hwire

/-- A step of the board the search is at keeps the ground if what it sends is fair. -/
theorem at_top (h : Ground net master masterId order top stack s) (hu : e.at = top)
    (hkeep : KeepsIds s e)
    (hreport : ∀ u iface rest, (s.node u).pc = .report iface rest →
      ∀ m ∈ rest, m.command = .topology)
    (hfair : ∀ i m v j, call nic net top (s.node top) = .send i m →
      net.wire top i = some (v, j) → Fair net masterId order v j m)
    (hs : step net s e = some s') : Ground net master masterId order top stack s' := by
  have hnode : ∀ w, w ≠ top → s'.node w = s.node w := fun w hw ↦
    next_node_of_ne hs (hu ▸ hw)
  refine ⟨h.nodup, h.head, h.room, h.top_mem, h.linked, h.roles.congr fun w hw ↦ ?_,
    fun w hw ↦ ?_, fun v j m hm ↦ ?_, fun v hv j ↦ h.quiet_step hkeep hreport hs hv j,
    blank_step h.blank hs⟩
  · rw [hnode w (h.ne_top hw)]
  · rw [hnode w hw]
    exact h.boards w hw
  · rcases next_mem_chan hs hm with hm | ⟨i, -, hcall, hwire⟩
    · exact h.fair v j m hm
    · subst hu
      exact hfair i m v j hcall hwire

end Ground

theorem Covered.mono {path path' : List V} {pend pend' : List Msg}
    (h : Covered net master masterId order s path pend)
    (hknown : ∀ v ∈ path, ∀ y ∈ order, ∀ i < nic.interfacesNum,
      Knows masterId order (s.node v).mem.topology y i →
        (∃ v' ∈ path', Knows masterId order (s'.node v').mem.topology y i) ∨
          ∃ m ∈ pend', m.command = .topology ∧ m.srcNode = ident masterId order y ∧ m.srcIf = i)
    (hpend : ∀ m ∈ pend, m.command = .topology → ∀ y ∈ order, m.srcNode = ident masterId order y →
      m.srcIf < nic.interfacesNum →
        (∃ v' ∈ path', Knows masterId order (s'.node v').mem.topology y m.srcIf) ∨ m ∈ pend') :
    Covered net master masterId order s' path' pend' := by
  intro x hx hxm
  obtain ⟨y, hy, hlt, i, j, hwire, hcase⟩ := h x hx hxm
  refine ⟨y, hy, hlt, i, j, hwire, ?_⟩
  have hi := net.lt_interfacesNum hwire
  rcases hcase with ⟨v, hv, hknows⟩ | ⟨m, hm, hcmd, hsrc, rfl⟩
  · exact hknown v hv y hy i hi hknows
  · rcases hpend m hm hcmd y hy hsrc hi with hknows | hm
    · exact .inl hknows
    · exact .inr ⟨m, hm, hcmd, hsrc, rfl⟩

/-! ## A new board -/

theorem Reports.append {m : Msg} (h : Reports net masterId order m) (x : V) :
    Reports net masterId (order ++ [x]) m := by
  obtain ⟨y, hy, z, hz, j, k, hyz, hzy, hsrc, hdst⟩ := h
  refine ⟨y, List.mem_append_left _ hy, z, List.mem_append_left _ hz, j, k, hyz, hzy, ?_, ?_⟩
  · rw [ident_append_of_mem hy, hsrc]
  · rw [ident_append_of_mem hz, hdst]

theorem Fair.append {v : V} {j : ℕ} {m : Msg} (h : Fair net masterId order v j m) (x : V) :
    Fair net masterId (order ++ [x]) v j m := by
  cases hcmd : m.command with
  | rspId =>
      simp only [Fair, hcmd] at h ⊢
      obtain ⟨y, hy, hwire, hsrc⟩ := h
      exact ⟨y, List.mem_append_left _ hy, hwire, by rw [ident_append_of_mem hy, hsrc]⟩
  | setid =>
      simp only [Fair, hcmd] at h ⊢
      exact ⟨List.mem_append_left _ h.1, by rw [ident_append_of_mem h.1, h.2]⟩
  | topology =>
      simp only [Fair, hcmd] at h ⊢
      exact h.append x
  | rspNoid => simpa only [Fair, hcmd] using h
  | _ => simp only [Fair, hcmd]

theorem Keeper.append {w : V} {m : Mem} (h : Keeper net masterId order w m) (hw : w ∈ order)
    (x : V) : Keeper net masterId (order ++ [x]) w m :=
  ⟨by rw [h.id, ident_append_of_mem hw], h.sound.append, h.mutual_⟩

end AxiomApps.Discovery.Faulty
