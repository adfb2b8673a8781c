import AxiomApps.Nic
import AxiomApps.Lib.FifoNet

/-!
# The discovery programs

`axiom_master_node_discovery`, `axiom_slave_node_discovery` and the phase they
share, written as the program of one board: the call it is blocked in
(`axiom_send_raw_discovery`, `axiom_recv_raw_discovery`, or the receive of the main
loop of axiom-init) and what it does when that call returns. Local work is done as
part of the step that precedes it, except that each turn of the loop over the
interfaces is a step of its own.

A slave whose discovery returns an error is back in the main loop, where the next
`AXIOM_DSCV_CMD_REQ_ID` starts it again; one that returns successfully goes on to
wait for its routing table and takes no further part.
-/

namespace AxiomApps.Discovery

open FifoNet

/-- The commands `AXIOM_DSCV_CMD_…`, and any other. -/
inductive Cmd
  | reqId
  | rspNoid
  | rspId
  | setid
  | start
  | topology
  | endTopology
  | other
  deriving DecidableEq, Repr

/-- A discovery message with the fields `axiom_send_raw_discovery` takes. -/
structure Msg where
  command : Cmd
  srcNode : ℕ
  dstNode : ℕ
  srcIf : ℕ
  dstIf : ℕ
  deriving DecidableEq, Repr

/-- Who runs `discover_phase`; a slave reports to the interface its
`AXIOM_DSCV_CMD_START` came from. -/
inductive Role
  | master
  | slave (iface : ℕ)
  deriving DecidableEq, Repr

/-- Where a board is in its program, with the loop variables and message fields
still needed there. -/
inductive Pc
  /-- the main loop of axiom-init -/
  | listen
  /-- the main loop has been left -/
  | exited
  | sendFirstRspId (iface peer : ℕ)
  | sendRspNoid (iface peer : ℕ)
  | waitSetid
  | waitStart
  /-- the head of the loop over the interfaces -/
  | poll (i : ℕ)
  | waitRsp (i : ℕ)
  | sendSetid (i peerIf : ℕ)
  | sendStart (i : ℕ)
  /-- the loop waiting for `AXIOM_DSCV_CMD_END_TOPOLOGY` -/
  | waitEnd (i startNode : ℕ)
  /-- inside that loop, answering a request for the own id -/
  | sendRspId (i startNode iface peer : ℕ)
  /-- inside the loop over `node_index` that never ends -/
  | spin
  /-- the topology report still to be sent, then `AXIOM_DSCV_CMD_END_TOPOLOGY` -/
  | report (iface : ℕ) (rest : List Msg)
  | returned
  | masterReturned (ret : AxiomRet) (lastNode : ℕ)
  deriving DecidableEq, Repr

/-- The variables of a board and its registers. -/
structure Mem where
  role : Role
  nodeId : ℕ
  nextId : ℕ
  topology : Topology
  routing : RoutingTable

def coldMem : Mem := ⟨.master, 0, 0, axiomTopologyInit, fun _ ↦ 0⟩

structure Node where
  pc : Pc
  mem : Mem

/-! ## Routing table updates -/

def axiomRoutingInit (nic : NicLimits) (r : RoutingTable) : RoutingTable :=
  fun k ↦ if k < nic.nodesNum then 0 else r k

/-- The slave's loop over `i = AXIOM_INIT_MASTER_NODE, …, src_node_id`, an `int`. -/
def routeUpTo (mask : IfMask) (first last : ℕ) (r : RoutingTable) : RoutingTable :=
  (List.range' first (last + 1 - first)).foldl (fun r k ↦ Function.update r k mask) r

/-- The loop over `node_index = start_node_index, …, *next_id` with its 8-bit index;
`none` when it has not ended after `fuel` turns. -/
def routeSubtree (mask : IfMask) (last : ℕ) : ℕ → ℕ → RoutingTable → Option RoutingTable
  | 0, _, _ => none
  | fuel + 1, k, r =>
      if k ≤ last then routeSubtree mask last fuel ((k + 1) % 256) (Function.update r k mask)
      else some r

/-! ## The topology report -/

/-- The loop over `w` that looks for the remote interface; it runs off the end of the
row when there is none. -/
def remoteIf (nic : NicLimits) (t : Topology) (i d : ℕ) : ℕ :=
  ((List.range nic.interfacesNum).find? fun w ↦ t d w = i).getD nic.interfacesNum

/-- The messages a slave sends for its matrix, row by row. -/
def topologyReport (nic : NicLimits) (t : Topology) : List Msg :=
  (List.range nic.nodesNum).flatMap fun i ↦
    (List.range nic.interfacesNum).filterMap fun j ↦
      if t i j = axiomNullNode then none
      else some ⟨.topology, i, t i j, j, remoteIf nic t i (t i j)⟩

/-! ## The steps of a board -/

section Steps

variable (nic : NicLimits)

/-- `discover_phase` reads its id and sets the loopback route. -/
def discoverPhase (m : Mem) : Node where
  pc := .poll 0
  mem := { m with
    routing := Function.update m.routing m.nodeId (axiomCodifyRoutingMask nic.ifLoopback) }

/-- `axiom_master_node_discovery` up to the loop over the interfaces. -/
def axiomMasterNodeDiscovery (masterId : ℕ) (m : Mem) : Node :=
  discoverPhase nic
    { role := .master
      nodeId := masterId
      nextId := masterId
      topology := axiomTopologyInit
      routing := axiomRoutingInit nic m.routing }

/-- `axiom_slave_node_discovery` up to its first send, on a request of node `peer`
that came in by interface `iface`. -/
def axiomSlaveNodeDiscovery (iface peer : ℕ) (m : Mem) : Node :=
  let m' : Mem := { m with
    nodeId := 0
    topology := axiomTopologyInit
    routing := routeUpTo (axiomCodifyRoutingMask iface) nic.initMasterNode peer
      (axiomRoutingInit nic m.routing) }
  { pc := if m'.nodeId ≠ 0 then .sendFirstRspId iface peer else .sendRspNoid iface peer
    mem := m' }

/-- The end of the loop over the interfaces: `discover_phase` returns
`AXIOM_RET_OK` whatever ended it, the master returns this with `*last_node`, and a
slave does not look at it. -/
def endPhase (m : Mem) : Node where
  pc := match m.role with
    | .master => .masterReturned .ok ((m.nextId + 1) % 256)
    | .slave iface => .report iface (topologyReport nic m.topology)
  mem := m

/-- The end of the wait for a child's topology. -/
def endTopology (i startNode next : ℕ) (m : Mem) : Node :=
  match routeSubtree (axiomCodifyRoutingMask i) next 257 startNode m.routing with
  | some r => { pc := .poll (i + 1), mem := { m with nextId := next, routing := r } }
  | none => { pc := .spin, mem := { m with nextId := next } }

variable {V : Type*} (net : Network nic V) (u : V)

/-- The interface is polled: it is connected and the matrix does not know the
neighbour behind it. -/
def Polls (m : Mem) (i : ℕ) : Prop :=
  i < net.ifNumber u ∧ (net.wire u i).isSome ∧ m.topology m.nodeId i = axiomNullNode

instance (m : Mem) (i : ℕ) : Decidable (Polls nic net u m i) :=
  inferInstanceAs (Decidable (_ ∧ _))

def call (n : Node) : Call ℕ Msg :=
  match n.pc with
  | .listen | .waitSetid | .waitStart | .waitRsp _ | .waitEnd _ _ => .recv fun _ ↦ true
  | .exited | .spin | .returned | .masterReturned _ _ => .halted
  | .sendFirstRspId iface peer => .send iface ⟨.rspId, n.mem.nodeId, peer, iface, 0⟩
  | .sendRspNoid iface peer => .send iface ⟨.rspNoid, n.mem.nodeId, peer, iface, 0⟩
  | .poll i =>
      if Polls nic net u n.mem i then .send i ⟨.reqId, n.mem.nodeId, 0, 0, 0⟩ else .internal
  | .sendSetid i _ => .send i ⟨.setid, n.mem.nodeId, n.mem.nextId, 0, 0⟩
  | .sendStart i => .send i ⟨.start, n.mem.nodeId, n.mem.nextId, 0, 0⟩
  | .sendRspId _ _ iface peer => .send iface ⟨.rspId, n.mem.nodeId, peer, iface, 0⟩
  | .report iface (m :: _) => .send iface m
  | .report iface [] => .send iface ⟨.endTopology, n.mem.nextId, 0, 0, 0⟩

/-- An interface that is not polled is passed over; past the last one the phase
ends. -/
def onInternal (n : Node) : Node :=
  match n.pc with
  | .poll i => if i < net.ifNumber u then { n with pc := .poll (i + 1) } else endPhase nic n.mem
  | _ => n

def onSent (n : Node) : Node :=
  match n.pc with
  | .sendFirstRspId _ _ => { n with pc := .returned }
  | .sendRspNoid _ _ => { n with pc := .waitSetid }
  | .poll i => { n with pc := .waitRsp i }
  | .sendSetid i peerIf =>
      { pc := .sendStart i
        mem := { n.mem with
          routing := Function.update n.mem.routing n.mem.nextId (axiomCodifyRoutingMask i)
          topology := n.mem.topology.link nic.interfacesNum n.mem.nodeId i n.mem.nextId peerIf } }
  | .sendStart i => { n with pc := .waitEnd i n.mem.nextId }
  | .sendRspId i startNode _ _ => { n with pc := .waitEnd i startNode }
  | .report iface (_ :: rest) => { n with pc := .report iface rest }
  | .report _ [] => { n with pc := .returned }
  | _ => n

/-- A failed send ends the loop over the interfaces, except that a failed answer
only ends the wait for the child. -/
def onSendError (n : Node) : Node :=
  match n.pc with
  | .sendFirstRspId _ _ | .sendRspNoid _ _ | .report _ _ => { n with pc := .listen }
  | .poll _ | .sendSetid _ _ | .sendStart _ => endPhase nic n.mem
  | .sendRspId i _ _ _ => { n with pc := .poll (i + 1) }
  | _ => n

def onRecv (iface : ℕ) (msg : Msg) (n : Node) : Node :=
  match n.pc with
  | .listen =>
      if msg.command = .reqId then axiomSlaveNodeDiscovery nic iface msg.srcNode n.mem else n
  | .waitSetid =>
      if msg.command = .setid then
        { pc := .waitStart, mem := { n.mem with nodeId := msg.dstNode } }
      else n
  | .waitStart =>
      if msg.command = .start then
        discoverPhase nic { n.mem with role := .slave iface, nextId := msg.dstNode }
      else n
  | .waitRsp i =>
      match msg.command with
      | .rspId =>
          { pc := .poll (i + 1)
            mem := { n.mem with
              topology := n.mem.topology.link nic.interfacesNum
                n.mem.nodeId iface msg.srcNode msg.srcIf } }
      | .rspNoid =>
          { pc := .sendSetid i msg.srcIf
            mem := { n.mem with nextId := (n.mem.nextId + 1) % 256 } }
      | _ => endPhase nic n.mem
  | .waitEnd i startNode =>
      match msg.command with
      | .reqId => { n with pc := .sendRspId i startNode iface msg.srcNode }
      | .topology =>
          { n with
            mem := { n.mem with
              topology := n.mem.topology.link nic.interfacesNum
                msg.srcNode msg.srcIf msg.dstNode msg.dstIf } }
      | .endTopology => endTopology i startNode msg.srcNode n.mem
      | _ => n
  | _ => n

/-- A failed receive ends the loop over the interfaces, except that in the wait for
a child's topology it only ends that wait. -/
def onRecvError (n : Node) : Node :=
  match n.pc with
  | .listen => { n with pc := .exited }
  | .waitSetid | .waitStart => { n with pc := .listen }
  | .waitRsp _ => endPhase nic n.mem
  | .waitEnd i _ => { n with pc := .poll (i + 1) }
  | _ => n

def program : Program Node ℕ Msg where
  call := call nic net u
  onInternal := onInternal nic net u
  onSent := onSent nic
  onSendError := onSendError nic
  onRecv := onRecv nic
  onRecvError := onRecvError nic

end Steps

/-! ## The network running discovery -/

section Network

variable {nic : NicLimits} {V : Type*} [DecidableEq V] (net : Network nic V)

abbrev State (V : Type*) := Net V Node ℕ Msg

/-- One board starts as master, the others wait in their main loop with whatever
their memory and registers hold; nothing is in flight. -/
def init (nic : NicLimits) (master : V) (masterId : ℕ) (boot : V → Mem) : State V where
  node w := if w = master then axiomMasterNodeDiscovery nic masterId (boot w)
    else { pc := .listen, mem := boot w }
  chan _ _ := []

def step : State V → Event V ℕ Msg → Option (State V) :=
  next (program nic net) net.wire

/-- In the run, `w` took the id `k` from an `AXIOM_DSCV_CMD_SETID`. -/
def Given (tr : List (State V × Event V ℕ Msg)) (w : V) (k : ℕ) : Prop :=
  ∃ s i m, (s, .received w i m) ∈ tr ∧ (s.node w).pc = .waitSetid ∧ m.command = .setid ∧
    m.dstNode = k

omit [DecidableEq V] in
theorem given_snoc {tr : List (State V × Event V ℕ Msg)} {s : State V} {e : Event V ℕ Msg} {w : V}
    {k : ℕ} (h : Given (tr ++ [(s, e)]) w k) :
    Given tr w k ∨ ∃ i m, e = .received w i m ∧ (s.node w).pc = .waitSetid ∧
      m.command = .setid ∧ m.dstNode = k := by
  obtain ⟨s', i, m, hmem, hpc, hcmd, hk⟩ := h
  rcases List.mem_append.mp hmem with hmem | hmem
  · exact .inl ⟨s', i, m, hmem, hpc, hcmd, hk⟩
  · obtain ⟨rfl, rfl⟩ : s' = s ∧ _ = e := by simpa using hmem
    exact .inr ⟨i, m, rfl, hpc, hcmd, hk⟩

def TakesId (w : V) (k : ℕ) (s : State V) : Event V ℕ Msg → Prop
  | .received v _ m => v = w ∧ (s.node w).pc = .waitSetid ∧ m.command = .setid ∧ m.dstNode = k
  | _ => False

instance (w : V) (k : ℕ) (s : State V) (e : Event V ℕ Msg) : Decidable (TakesId w k s e) :=
  match e with
  | .received _ _ _ => inferInstanceAs (Decidable (_ ∧ _ ∧ _ ∧ _))
  | .internal _ | .sent _ | .sendError _ | .recvError _ | .stray _ _ _ => .isFalse id

omit [DecidableEq V] in
theorem given_iff {tr : List (State V × Event V ℕ Msg)} {w : V} {k : ℕ} :
    (∃ p ∈ tr, TakesId w k p.1 p.2) ↔ Given tr w k := by
  constructor
  · rintro ⟨⟨s, e⟩, hmem, h⟩
    cases e with
    | received v i m =>
        obtain ⟨rfl, hpc, hcmd, hk⟩ := h
        exact ⟨s, i, m, hmem, hpc, hcmd, hk⟩
    | _ => exact h.elim
  · rintro ⟨s, i, m, hmem, hpc, hcmd, hk⟩
    exact ⟨_, hmem, rfl, hpc, hcmd, hk⟩

instance (tr : List (State V × Event V ℕ Msg)) (w : V) (k : ℕ) : Decidable (Given tr w k) :=
  decidable_of_iff _ given_iff

/-- The commands a board at `pc` does not expect. -/
def Unexpected (pc : Pc) (c : Cmd) : Prop :=
  match pc with
  | .listen => c ≠ .reqId
  | .waitSetid => c ≠ .setid
  | .waitStart => c ≠ .start
  | .waitRsp _ => c ≠ .rspId ∧ c ≠ .rspNoid
  | .waitEnd _ _ => c ≠ .reqId ∧ c ≠ .topology ∧ c ≠ .endTopology
  | _ => True

instance (pc : Pc) (c : Cmd) : Decidable (Unexpected pc c) := by
  cases pc <;> unfold Unexpected <;> infer_instance

end Network

end AxiomApps.Discovery
