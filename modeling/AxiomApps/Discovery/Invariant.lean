import AxiomApps.Discovery.Search

/-!
# The invariant of a fault-free discovery

`Inv` lists the stages of the search together with the control points of all boards
and the one queue that may hold messages. Every faultless step leads from stage to
stage, until the master returns; only the step that would hand out the null id as a
board's number is left aside, and `Inv.step` asks that it is not taken.
-/

namespace AxiomApps.Discovery

open FifoNet

variable {nic : NicLimits} {V : Type*} [DecidableEq V]

/-! ## Control points and memories of all boards -/

def pcs (node : V → Node) : V → Pc := fun w ↦ (node w).pc

def mems (node : V → Node) : V → Mem := fun w ↦ (node w).mem

theorem pcs_update (node : V → Node) (a : V) (n : Node) :
    pcs (Function.update node a n) = Function.update (pcs node) a n.pc := by
  funext w
  by_cases hw : w = a
  · subst hw
    simp [pcs]
  · simp [pcs, hw]

theorem pcs_put {node : V → Node} {f : V → Pc} (h : pcs node = f) (a : V) (n : Node) :
    pcs (Function.update node a n) = Function.update f a n.pc := by
  rw [pcs_update, h]

theorem pcs_set {node : V → Node} {f : V → Pc} {a : V} {x : Pc}
    (h : pcs node = Function.update f a x) (n : Node) :
    pcs (Function.update node a n) = Function.update f a n.pc := by
  rw [pcs_update, h, Function.update_idem]

theorem mems_update (node : V → Node) (a : V) (n : Node) :
    mems (Function.update node a n) = Function.update (mems node) a n.mem := by
  funext w
  by_cases hw : w = a
  · subst hw
    simp [mems]
  · simp [mems, hw]

theorem mems_update_of_eq {node : V → Node} {a : V} {n : Node} (h : n.mem = (node a).mem) :
    mems (Function.update node a n) = mems node := by
  rw [mems_update, h]
  exact Function.update_eq_self a (mems node)

theorem pc_of_pcs {node : V → Node} {f : V → Pc} {a : V} {x : Pc}
    (h : pcs node = Function.update f a x) : (node a).pc = x := by
  have ha := congrFun h a
  rwa [Function.update_self] at ha

theorem pc_of_pcs_ne {node : V → Node} {f : V → Pc} {a w : V} {x : Pc}
    (h : pcs node = Function.update f a x) (hw : w ≠ a) : (node w).pc = f w := by
  have ha := congrFun h w
  rwa [Function.update_of_ne hw] at ha

theorem pc_of_pcs_ne_ne {node : V → Node} {f : V → Pc} {a b w : V} {x y : Pc}
    (h : pcs node = Function.update (Function.update f a x) b y) (ha : w ≠ a) (hb : w ≠ b) :
    (node w).pc = f w := by
  rw [pc_of_pcs_ne h hb, Function.update_of_ne ha]

/-- The control points at which a board waits for a message or has left its program. -/
def Pc.Waits : Pc → Prop
  | .listen | .exited | .waitSetid | .waitStart | .waitRsp _ | .waitEnd _ _ => True
  | .spin | .returned | .masterReturned _ _ => True
  | _ => False

omit [DecidableEq V] in
theorem blocked_of_waits {net : Network nic V} {w : V} {n : Node} (h : n.pc.Waits) :
    Blocked (program nic net w) n := by
  obtain ⟨pc, mem⟩ := n
  cases pc <;> first | exact h.elim | simp [Blocked, program, call]

theorem restPc_waits (masterId : ℕ) (order : List V) (c : V) (stack : Stack V) (w : V) :
    (restPc masterId order c stack w).Waits := by
  induction stack generalizing c with
  | nil =>
      rw [restPc]
      split <;> trivial
  | cons f st ih =>
      obtain ⟨p, i⟩ := f
      rw [restPc]
      split
      · trivial
      · exact ih p

theorem update_waits {f : V → Pc} {a : V} {x : Pc} (hf : ∀ w, (f w).Waits) (hx : x.Waits) (w : V) :
    (Function.update f a x w).Waits := by
  by_cases hw : w = a
  · subst hw
    rwa [Function.update_self]
  · rw [Function.update_of_ne hw]
    exact hf w

theorem blocked_of_pcs {net : Network nic V} {node : V → Node} {f : V → Pc} {a : V} {x : Pc}
    (h : pcs node = Function.update f a x) (hf : ∀ w, (f w).Waits) (w : V) (hw : w ≠ a) :
    Blocked (program nic net w) (node w) := by
  apply blocked_of_waits
  rw [pc_of_pcs_ne h hw]
  exact hf w

/-- With all others waiting, a board that does not wait is the one that is set apart. -/
theorem pc_active {node : V → Node} {f : V → Pc} {a u : V} {x : Pc}
    (h : pcs node = Function.update f a x) (hf : ∀ w, (f w).Waits) (hu : ¬ (node u).pc.Waits) :
    u = a ∧ (node u).pc = x := by
  by_cases hua : u = a
  · subst hua
    exact ⟨rfl, pc_of_pcs h⟩
  · rw [pc_of_pcs_ne h hua] at hu
    exact absurd (hf u) hu

theorem restPc_cons (masterId : ℕ) (order : List V) (c p : V) (i : ℕ) (st : Stack V) :
    restPc masterId order c ((p, i) :: st) =
      Function.update (restPc masterId order p st) p (.waitEnd i (ident masterId order c)) := by
  funext w
  by_cases hw : w = p
  · subst hw
    simp [restPc]
  · simp [restPc, hw]

/-! ## The stages -/

variable (net : Network nic V) (master : V) (masterId : ℕ) [Fintype V]

/-- `top` has polled its interface `i`, which leads to interface `j` of `v`. -/
structure Polling (order : List V) (top : V) (stack : Stack V) (i : ℕ) (v : V) (j : ℕ)
    (node : V → Node) : Prop where
  exploring : Exploring net master masterId order top stack i (mems node)
  next : (node top).mem.nextId + 1 = masterId + order.length
  wire : net.wire top i = some (v, j)

/-- What a board has set up on its first request, which came in by interface `j`. -/
def Greeted (nic : NicLimits) (masterId j : ℕ) (m : Mem) : Prop :=
  m.topology = axiomTopologyInit ∧
    (nic.initMasterNode = masterId → m.routing masterId = axiomCodifyRoutingMask j)

inductive Inv (order : List V) : State V → Prop
  | exploring {node : V → Node} {top : V} {stack : Stack V} {i : ℕ}
      (hpc : pcs node = Function.update (restPc masterId order top stack) top (.poll i))
      (h : Exploring net master masterId order top stack i (mems node))
      (hnext : (node top).mem.nextId + 1 = masterId + order.length) :
      Inv order (.single node top 0 [])
  | asked {node : V → Node} {top v : V} {stack : Stack V} {i j : ℕ}
      (hpc : pcs node = Function.update (restPc masterId order top stack) top (.waitRsp i))
      (h : Polling net master masterId order top stack i v j node)
      (hv : v ∉ order ∨ v ∈ stack.nodes) :
      Inv order (.single node v j [⟨.reqId, ident masterId order top, 0, 0, 0⟩])
  | answering {node : V → Node} {top v : V} {stack : Stack V} {i j i' startNode peer : ℕ}
      (hpc : pcs node = Function.update (Function.update (restPc masterId order top stack) top
        (.waitRsp i)) v (.sendRspId i' startNode j peer))
      (h : Polling net master masterId order top stack i v j node) (hv : v ∈ stack.nodes)
      (hrest : restPc masterId order top stack v = .waitEnd i' startNode) :
      Inv order (.single node top 0 [])
  | answered {node : V → Node} {top v : V} {stack : Stack V} {i j peer : ℕ}
      (hpc : pcs node = Function.update (restPc masterId order top stack) top (.waitRsp i))
      (h : Polling net master masterId order top stack i v j node) (hv : v ∈ stack.nodes) :
      Inv order (.single node top i [⟨.rspId, ident masterId order v, peer, j, 0⟩])
  | greeting {node : V → Node} {top v : V} {stack : Stack V} {i j peer : ℕ}
      (hpc : pcs node = Function.update (Function.update (restPc masterId order top stack) top
        (.waitRsp i)) v (.sendRspNoid j peer))
      (h : Polling net master masterId order top stack i v j node) (hv : v ∉ order)
      (hgreet : Greeted nic masterId j (node v).mem) :
      Inv order (.single node top 0 [])
  | greeted {node : V → Node} {top v : V} {stack : Stack V} {i j : ℕ} {m : Msg}
      (hpc : pcs node = Function.update (Function.update (restPc masterId order top stack) v
        .waitSetid) top (.waitRsp i))
      (h : Polling net master masterId order top stack i v j node) (hv : v ∉ order)
      (hgreet : Greeted nic masterId j (node v).mem) (hm : m.command = .rspNoid)
      (hif : m.srcIf = j) :
      Inv order (.single node top i [m])
  | numbering {node : V → Node} {top v : V} {stack : Stack V} {i j : ℕ}
      (hpc : pcs node = Function.update (Function.update (restPc masterId order top stack) v
        .waitSetid) top (.sendSetid i j))
      (h : Exploring net master masterId order top stack i (mems node))
      (hnext : (node top).mem.nextId = masterId + order.length)
      (hwire : net.wire top i = some (v, j)) (hv : v ∉ order)
      (hgreet : Greeted nic masterId j (node v).mem) :
      Inv order (.single node top 0 [])
  /-- the number of `top` and the word to begin are sent by `p` and read by `top` each
  in its own time -/
  | starting {node : V → Node} {top p : V} {st : Stack V} {i j a b : ℕ} (named started : Bool)
      (hpc : pcs node = Function.update (Function.update
        (restPc masterId order top ((p, i) :: st)) top (if named then .waitStart else .waitSetid))
        p (if started then .waitEnd i (ident masterId order top) else .sendStart i))
      (h : Starting net master masterId order top p i st (mems node))
      (hwire : net.wire p i = some (top, j))
      (hid : named = true → (node top).mem.nodeId = ident masterId order top) :
      Inv order (.single node top j
        ((if named then [] else [⟨.setid, a, ident masterId order top, 0, 0⟩]) ++
          if started then [⟨.start, b, ident masterId order top, 0, 0⟩] else []))
  | reporting {node : V → Node} {top p : V} {st : Stack V} {i j : ℕ} {queue rest : List Msg}
      (hpc : pcs node = Function.update (restPc masterId order top ((p, i) :: st)) top
        (.report j rest))
      (h : Reporting net master masterId order top p i st (queue ++ rest) (mems node))
      (hwire : net.wire p i = some (top, j)) :
      Inv order (.single node p i queue)
  | closing {node : V → Node} {top p : V} {st : Stack V} {i next : ℕ} {queue : List Msg}
      (hpc : pcs node = restPc masterId order top ((p, i) :: st))
      (h : Reporting net master masterId order top p i st queue (mems node))
      (hnext : next + 1 = masterId + order.length) :
      Inv order (.single node p i (queue ++ [⟨.endTopology, next, 0, 0, 0⟩]))
  | finished {node : V → Node} {i : ℕ}
      (hpc : pcs node = Function.update (restPc masterId order master []) master
        (.masterReturned .ok ((masterId + order.length) % 256)))
      (h : Exploring net master masterId order master [] i (mems node))
      (hi : net.ifNumber master ≤ i) :
      Inv order (.single node master 0 [])

/-- The step sends the null id as a board's number. -/
def Wraps (s : State V) (e : Event V ℕ Msg) : Prop :=
  ∃ u i peerIf, e = .sent u ∧ (s.node u).pc = .sendSetid i peerIf ∧
    (s.node u).mem.nextId = axiomNullNode

variable {net master masterId} {order : List V} {s s' : State V} {e : Event V ℕ Msg}

theorem Inv.goes (h : Inv net master masterId order s) :
    ∃ order', order <+: order' ∧ Inv net master masterId order' s :=
  ⟨order, List.prefix_rfl, h⟩

/-! ## Stage by stage -/

section Stages

variable {node : V → Node} {top v p : V} {stack st : Stack V} {i j : ℕ}

theorem knows_of_not_polls (h : Exploring net master masterId order top stack i (mems node))
    (hi : i < net.ifNumber top) (hpolls : ¬ Polls nic net top (node top).mem i) (q : V × ℕ)
    (hq : net.wire top i = some q) :
    Knows masterId order (mems node top).topology top i := by
  intro hnull
  refine hpolls ⟨hi, by simp [hq], ?_⟩
  have hid : (node top).mem.nodeId = ident masterId order top := h.id
  rw [hid]
  exact hnull

/-- The end of the loop over the interfaces. -/
theorem step_endPhase
    (hpc : pcs node = Function.update (restPc masterId order top stack) top (.poll i))
    (h : Exploring net master masterId order top stack i (mems node))
    (hnext : (node top).mem.nextId + 1 = masterId + order.length)
    (hi : net.ifNumber top ≤ i) :
    Inv net master masterId order
      (.single (Function.update node top (endPhase nic (node top).mem)) top 0 []) := by
  have hmem : mems (Function.update node top (endPhase nic (node top).mem)) = mems node :=
    mems_update_of_eq rfl
  have hrole : HasRole net (node top).mem.role top stack := h.role
  cases stack with
  | nil =>
      obtain rfl : top = master := h.linked
      refine .finished ((pcs_set hpc _).trans ?_) (hmem ▸ h) hi
      have hrole' : (node top).mem.role = .master := hrole
      rw [endPhase, hrole', hnext]
  | cons f st =>
      obtain ⟨p, i'⟩ := f
      obtain ⟨j, hwire, hrole'⟩ := hrole
      rw [Net.single_nil p i']
      have hpc' : pcs (Function.update node top (endPhase nic (node top).mem)) =
          Function.update (restPc masterId order top ((p, i') :: st)) top
            (.report j (topologyReport nic (node top).mem.topology)) := by
        rw [pcs_set hpc, endPhase, hrole']
      refine .reporting hpc' ?_ hwire
      rw [hmem]
      exact h.reports hi hnext

theorem step_exploring
    (hpc : pcs node = Function.update (restPc masterId order top stack) top (.poll i))
    (h : Exploring net master masterId order top stack i (mems node))
    (hnext : (node top).mem.nextId + 1 = masterId + order.length) (he : e.Faultless)
    (hs : step net (.single node top 0 []) e = some s') : Inv net master masterId order s' := by
  have hat : (node top).pc = .poll i := pc_of_pcs hpc
  have hid : (node top).mem.nodeId = ident masterId order top := h.id
  rcases next_single_cases (blocked_of_pcs hpc (restPc_waits masterId order top stack)) he hs with
    ⟨hcall, rfl⟩ | ⟨k, m, hcall, _, rfl⟩ | ⟨_, _, _, _, hq, _⟩
  · -- the interface is passed over, or was the last one
    have hpolls : ¬ Polls nic net top (node top).mem i := by
      intro hp
      simp [program, call, hat, hp] at hcall
    by_cases hi : i < net.ifNumber top
    · have hnode : (program nic net top).onInternal (node top) =
          { node top with pc := .poll (i + 1) } := by
        simp [program, onInternal, hat, hi]
      rw [hnode]
      have hmem : mems (Function.update node top { node top with pc := .poll (i + 1) }) =
          mems node := mems_update_of_eq rfl
      refine .exploring (pcs_set hpc _) (hmem ▸ h.skip (knows_of_not_polls h hi hpolls)) ?_
      simpa using hnext
    · have hnode : (program nic net top).onInternal (node top) = endPhase nic (node top).mem := by
        simp [program, onInternal, hat, hi]
      rw [hnode]
      exact step_endPhase hpc h hnext (not_lt.mp hi)
  · -- the neighbour is asked for its id
    have hpolls : Polls nic net top (node top).mem i := by
      by_contra hp
      simp [program, call, hat, hp] at hcall
    obtain ⟨rfl, rfl⟩ : k = i ∧ m = ⟨.reqId, ident masterId order top, 0, 0, 0⟩ := by
      simp only [program, call, hat, hpolls, if_true, Call.send.injEq] at hcall
      exact ⟨hcall.1.symm, by rw [← hcall.2, hid]⟩
    obtain ⟨_, hsome, hnull⟩ := hpolls
    obtain ⟨⟨v, j⟩, hwire⟩ := Option.isSome_iff_exists.mp hsome
    have hnode : (program nic net top).onSent (node top) = { node top with pc := .waitRsp k } := by
      simp [program, onSent, hat]
    rw [hnode, hwire, Net.put_single_nil]
    have hmem : mems (Function.update node top { node top with pc := .waitRsp k }) = mems node :=
      mems_update_of_eq rfl
    refine .asked (pcs_set hpc _) ⟨hmem ▸ h, by simpa using hnext, hwire⟩ ?_
    refine h.neighbour hwire fun hknows ↦ hknows ?_
    rw [← h.id]
    exact hnull
  · cases hq

/-- A neighbour that is new sets itself up; one that waits for its child answers. -/
theorem step_asked
    (hpc : pcs node = Function.update (restPc masterId order top stack) top (.waitRsp i))
    (h : Polling net master masterId order top stack i v j node)
    (hv : v ∉ order ∨ v ∈ stack.nodes) (he : e.Faultless)
    (hs : step net (.single node v j [⟨.reqId, ident masterId order top, 0, 0, 0⟩]) e = some s') :
    Inv net master masterId order s' := by
  have hall : ∀ w, (pcs node w).Waits := by
    rw [hpc]
    exact update_waits (restPc_waits masterId order top stack) trivial
  have hvt : v ≠ top := (net.ne h.wire).symm
  have hat : (node v).pc = restPc masterId order top stack v := pc_of_pcs_ne hpc hvt
  obtain ⟨m, r, hq, -, rfl⟩ := next_single_blocked (fun w ↦ blocked_of_waits (hall w)) he hs
  obtain ⟨rfl, rfl⟩ : _ = m ∧ [] = r := by simpa using hq
  rw [Net.single_nil top 0]
  rcases hv with hv | hv
  · rw [restPc_of_notMem (fun q hq ↦ h.exploring.stack_mem hq) hv] at hat
    have hnode : (program nic net v).onRecv j ⟨.reqId, ident masterId order top, 0, 0, 0⟩ (node v) =
        axiomSlaveNodeDiscovery nic j (ident masterId order top) (node v).mem := by
      simp [program, onRecv, hat]
    rw [hnode]
    refine .greeting (pcs_put hpc v _) ⟨?_, ?_, h.wire⟩ hv ⟨?_, ?_⟩
    · rw [mems_update]
      refine h.exploring.congr fun w hw ↦ ?_
      have hwv : w ≠ v := by
        rintro rfl
        exact hv hw
      simp [hwv]
    · rw [Function.update_of_ne hvt.symm]
      exact h.next
    · simp [axiomSlaveNodeDiscovery]
    · intro hmaster
      have hle : masterId ≤ ident masterId order top := Nat.le_add_right _ _
      simp [axiomSlaveNodeDiscovery, routeUpTo_apply, hmaster, hle]
  · obtain ⟨i', startNode, hrest⟩ : ∃ i' startNode,
        restPc masterId order top stack v = .waitEnd i' startNode := restPc_of_mem_stack hv
    rw [hrest] at hat
    have hnode : (program nic net v).onRecv j ⟨.reqId, ident masterId order top, 0, 0, 0⟩ (node v) =
        { node v with pc := .sendRspId i' startNode j (ident masterId order top) } := by
      simp [program, onRecv, hat]
    rw [hnode]
    have hmem : mems (Function.update node v
        { node v with pc := .sendRspId i' startNode j (ident masterId order top) }) = mems node :=
      mems_update_of_eq rfl
    refine .answering (pcs_put hpc v _) ⟨hmem ▸ h.exploring, ?_, h.wire⟩ hv hrest
    rw [Function.update_of_ne hvt.symm]
    exact h.next

theorem step_answering {i' startNode peer : ℕ}
    (hpc : pcs node = Function.update (Function.update (restPc masterId order top stack) top
      (.waitRsp i)) v (.sendRspId i' startNode j peer))
    (h : Polling net master masterId order top stack i v j node) (hv : v ∈ stack.nodes)
    (hrest : restPc masterId order top stack v = .waitEnd i' startNode) (he : e.Faultless)
    (hs : step net (.single node top 0 []) e = some s') : Inv net master masterId order s' := by
  have hvt : v ≠ top := (net.ne h.wire).symm
  have hat : (node v).pc = .sendRspId i' startNode j peer := pc_of_pcs hpc
  have hid : (node v).mem.nodeId = ident masterId order v :=
    h.exploring.ids v (h.exploring.stack_mem hv) hvt
  have hcall : (program nic net v).call (node v) =
      .send j ⟨.rspId, ident masterId order v, peer, j, 0⟩ := by
    simp [program, call, hat, hid]
  have hwaits := update_waits (a := top) (x := .waitRsp i)
    (restPc_waits masterId order top stack) trivial
  obtain ⟨-, rfl⟩ :=
    next_single_send (blocked_of_pcs hpc hwaits) hcall (net.symm h.wire) he hs
  have hnode : (program nic net v).onSent (node v) =
      { node v with pc := .waitEnd i' startNode } := by
    simp [program, onSent, hat]
  rw [hnode]
  have hmem : mems (Function.update node v { node v with pc := .waitEnd i' startNode }) =
      mems node := mems_update_of_eq rfl
  refine .answered ?_ ⟨hmem ▸ h.exploring, ?_, h.wire⟩ hv
  · -- the answering board is back in its wait
    rw [pcs_set hpc, ← hrest, Function.update_eq_self_iff, Function.update_of_ne hvt]
  · rw [Function.update_of_ne hvt.symm]
    exact h.next

theorem step_answered {peer : ℕ}
    (hpc : pcs node = Function.update (restPc masterId order top stack) top (.waitRsp i))
    (h : Polling net master masterId order top stack i v j node) (hv : v ∈ stack.nodes)
    (he : e.Faultless)
    (hs : step net (.single node top i [⟨.rspId, ident masterId order v, peer, j, 0⟩]) e =
      some s') : Inv net master masterId order s' := by
  have hall : ∀ w, (pcs node w).Waits := by
    rw [hpc]
    exact update_waits (restPc_waits masterId order top stack) trivial
  have hat : (node top).pc = .waitRsp i := pc_of_pcs hpc
  have hid : (node top).mem.nodeId = ident masterId order top := h.exploring.id
  obtain ⟨m, r, hq, -, rfl⟩ := next_single_blocked (fun w ↦ blocked_of_waits (hall w)) he hs
  obtain ⟨rfl, rfl⟩ : _ = m ∧ [] = r := by simpa using hq
  have hnode : (program nic net top).onRecv i ⟨.rspId, ident masterId order v, peer, j, 0⟩
      (node top) = ⟨.poll (i + 1), { (node top).mem with
        topology := (node top).mem.topology.link nic.interfacesNum
          (ident masterId order top) i (ident masterId order v) j }⟩ := by
    simp [program, onRecv, hat, hid]
  rw [hnode, Net.single_nil top 0]
  refine .exploring (pcs_set hpc _) ?_ ?_
  · exact h.exploring.learn h.wire (h.exploring.stack_mem hv) (mems_update _ _ _)
  · simpa using h.next

theorem step_greeting {peer : ℕ}
    (hpc : pcs node = Function.update (Function.update (restPc masterId order top stack) top
      (.waitRsp i)) v (.sendRspNoid j peer))
    (h : Polling net master masterId order top stack i v j node) (hv : v ∉ order)
    (hgreet : Greeted nic masterId j (node v).mem) (he : e.Faultless)
    (hs : step net (.single node top 0 []) e = some s') : Inv net master masterId order s' := by
  have hvt : v ≠ top := (net.ne h.wire).symm
  have hat : (node v).pc = .sendRspNoid j peer := pc_of_pcs hpc
  have hcall : (program nic net v).call (node v) =
      .send j ⟨.rspNoid, (node v).mem.nodeId, peer, j, 0⟩ := by
    simp [program, call, hat]
  have hwaits := update_waits (a := top) (x := .waitRsp i)
    (restPc_waits masterId order top stack) trivial
  obtain ⟨-, rfl⟩ :=
    next_single_send (blocked_of_pcs hpc hwaits) hcall (net.symm h.wire) he hs
  have hnode : (program nic net v).onSent (node v) = { node v with pc := .waitSetid } := by
    simp [program, onSent, hat]
  rw [hnode]
  have hmem : mems (Function.update node v { node v with pc := .waitSetid }) = mems node :=
    mems_update_of_eq rfl
  have hpc' : pcs (Function.update node v { node v with pc := .waitSetid }) =
      Function.update (Function.update (restPc masterId order top stack) v .waitSetid) top
        (.waitRsp i) := by
    rw [pcs_set hpc, Function.update_comm hvt]
  refine .greeted hpc' ⟨hmem ▸ h.exploring, ?_, h.wire⟩ hv ?_ rfl rfl
  · rw [Function.update_of_ne hvt.symm]
    exact h.next
  · simpa using hgreet

theorem step_greeted {m : Msg}
    (hpc : pcs node = Function.update (Function.update (restPc masterId order top stack) v
      .waitSetid) top (.waitRsp i))
    (h : Polling net master masterId order top stack i v j node) (hv : v ∉ order)
    (hgreet : Greeted nic masterId j (node v).mem) (hm : m.command = .rspNoid) (hif : m.srcIf = j)
    (he : e.Faultless) (hs : step net (.single node top i [m]) e = some s') :
    Inv net master masterId order s' := by
  have hvt : v ≠ top := (net.ne h.wire).symm
  have hall : ∀ w, (pcs node w).Waits := by
    rw [hpc]
    exact update_waits (update_waits (restPc_waits masterId order top stack) trivial) trivial
  have hat : (node top).pc = .waitRsp i := pc_of_pcs hpc
  obtain ⟨m', r, hq, -, rfl⟩ := next_single_blocked (fun w ↦ blocked_of_waits (hall w)) he hs
  obtain ⟨rfl, rfl⟩ : m = m' ∧ [] = r := by simpa using hq
  -- the counter is at most 254, so it does not wrap here
  have hroom := h.exploring.room
  have hnext := h.next
  have hnode : (program nic net top).onRecv i m (node top) =
      ⟨.sendSetid i j, { (node top).mem with nextId := masterId + order.length }⟩ := by
    have hmod : ((node top).mem.nextId + 1) % 256 = masterId + order.length := by omega
    simp [program, onRecv, hat, hm, hif, hmod]
  rw [hnode, Net.single_nil top 0]
  refine .numbering (pcs_set hpc _) ?_ (by simp) h.wire hv ?_
  · rw [mems_update]
    refine h.exploring.congr fun w _ ↦ ?_
    by_cases hw : w = top
    · subst hw
      simp [mems]
    · simp [hw]
  · rw [Function.update_of_ne hvt]
    exact hgreet

/-- The new board is given its number, unless that is the null id. -/
theorem step_numbering
    (hpc : pcs node = Function.update (Function.update (restPc masterId order top stack) v
      .waitSetid) top (.sendSetid i j))
    (h : Exploring net master masterId order top stack i (mems node))
    (hnext : (node top).mem.nextId = masterId + order.length)
    (hwire : net.wire top i = some (v, j)) (hv : v ∉ order)
    (hgreet : Greeted nic masterId j (node v).mem) (he : e.Faultless)
    (hs : step net (.single node top 0 []) e = some s')
    (hwraps : ¬ Wraps (.single node top 0 []) e) :
    Inv net master masterId (order ++ [v]) s' := by
  have hvt : v ≠ top := (net.ne hwire).symm
  have hat : (node top).pc = .sendSetid i j := pc_of_pcs hpc
  have hident : (node top).mem.nextId = ident masterId (order ++ [v]) v := by
    rw [hnext, ident_append_new hv]
  have hcall : (program nic net top).call (node top) =
      .send i ⟨.setid, (node top).mem.nodeId, ident masterId (order ++ [v]) v, 0, 0⟩ := by
    simp [program, call, hat, hident]
  have hwaits := update_waits (a := v) (x := .waitSetid)
    (restPc_waits masterId order top stack) trivial
  obtain ⟨rfl, rfl⟩ := next_single_send (blocked_of_pcs hpc hwaits) hcall hwire he hs
  have hroom : masterId + order.length < 255 := by
    refine lt_of_le_of_ne h.room fun heq ↦ hwraps ⟨top, i, j, rfl, hat, ?_⟩
    exact hnext.trans heq
  have hnode : (program nic net top).onSent (node top) = ⟨.sendStart i, { (node top).mem with
      routing := Function.update (node top).mem.routing (node top).mem.nextId
        (axiomCodifyRoutingMask i)
      topology := (node top).mem.topology.link nic.interfacesNum (node top).mem.nodeId i
        (node top).mem.nextId j }⟩ := by
    simp [program, onSent, hat]
  rw [hnode]
  refine .starting (a := (node top).mem.nodeId) (b := 0) false false ?_
    (h.name hwire hv hroom hnext hgreet.1 hgreet.2 (mems_update node top _)) hwire (by simp)
  -- only the control points of the two boards have changed
  rw [pcs_set hpc, restPc_cons]
  funext w
  by_cases hwt : w = top
  · subst hwt
    simp
  by_cases hwv : w = v
  · subst hwv
    simp [hwt]
  · simp only [Function.update_of_ne hwt, Function.update_of_ne hwv]
    exact (restPc_append h.top_mem (fun q hq ↦ h.stack_mem hq) hwv).symm

/-- The new board reads its number, whether or not the word to begin is behind it. -/
theorem starting_named {a b : ℕ} (started : Bool)
    (hpc : pcs node = Function.update (Function.update
      (restPc masterId order top ((p, i) :: st)) top .waitSetid)
      p (if started then .waitEnd i (ident masterId order top) else .sendStart i))
    (h : Starting net master masterId order top p i st (mems node))
    (hwire : net.wire p i = some (top, j)) :
    Inv net master masterId order (.single (Function.update node top
      ((program nic net top).onRecv j ⟨.setid, a, ident masterId order top, 0, 0⟩ (node top)))
        top j (if started then [⟨.start, b, ident masterId order top, 0, 0⟩] else [])) := by
  have hpt : p ≠ top := net.ne hwire
  have hat : (node top).pc = .waitSetid := by
    rw [pc_of_pcs_ne hpc hpt.symm, Function.update_self]
  have hnode : (program nic net top).onRecv j ⟨.setid, a, ident masterId order top, 0, 0⟩
      (node top) = ⟨.waitStart, { (node top).mem with nodeId := ident masterId order top }⟩ := by
    simp [program, onRecv, hat]
  rw [hnode]
  refine .starting (a := a) true started ?_ (h.named ?_ ?_ ?_) hwire (by simp)
  · rw [Function.update_comm hpt.symm] at hpc
    rw [pcs_set hpc, Function.update_comm hpt]
    rfl
  · intro w
    by_cases hw : w = top
    · subst hw
      simp [mems]
    · simp [mems, hw]
  · intro w
    by_cases hw : w = top
    · subst hw
      simp [mems]
    · simp [mems, hw]
  · intro w hw
    simp [mems, hw]

/-- The new board starts its own loop over the interfaces. -/
theorem starting_begins {b : ℕ}
    (hpc : pcs node = Function.update (Function.update
      (restPc masterId order top ((p, i) :: st)) top .waitStart)
      p (.waitEnd i (ident masterId order top)))
    (h : Starting net master masterId order top p i st (mems node))
    (hwire : net.wire p i = some (top, j))
    (hid : (node top).mem.nodeId = ident masterId order top) :
    Inv net master masterId order (.single (Function.update node top
      ((program nic net top).onRecv j ⟨.start, b, ident masterId order top, 0, 0⟩ (node top)))
        top 0 []) := by
  have hpt : p ≠ top := net.ne hwire
  have hat : (node top).pc = .waitStart := by
    rw [pc_of_pcs_ne hpc hpt.symm, Function.update_self]
  have hnode : (program nic net top).onRecv j ⟨.start, b, ident masterId order top, 0, 0⟩
      (node top) = ⟨.poll 0, { (node top).mem with
        role := .slave j
        nextId := ident masterId order top
        routing := Function.update (node top).mem.routing (node top).mem.nodeId
          (axiomCodifyRoutingMask nic.ifLoopback) }⟩ := by
    simp [program, onRecv, hat, discoverPhase]
  rw [hnode]
  refine .exploring ?_ (h.begins hwire hid (mems_update node top _)) ?_
  · rw [Function.update_comm hpt.symm] at hpc
    rw [pcs_set hpc, restPc_cons, Function.update_idem]
  · have hlast := h.last
    simp only [Function.update_self, ident]
    omega

theorem step_starting {a b : ℕ} (named started : Bool)
    (hpc : pcs node = Function.update (Function.update
      (restPc masterId order top ((p, i) :: st)) top (if named then .waitStart else .waitSetid))
      p (if started then .waitEnd i (ident masterId order top) else .sendStart i))
    (h : Starting net master masterId order top p i st (mems node))
    (hwire : net.wire p i = some (top, j))
    (hid : named = true → (node top).mem.nodeId = ident masterId order top) (he : e.Faultless)
    (hs : step net (.single node top j
      ((if named then [] else [⟨.setid, a, ident masterId order top, 0, 0⟩]) ++
        if started then [⟨.start, b, ident masterId order top, 0, 0⟩] else [])) e = some s') :
    Inv net master masterId order s' := by
  have hwaits := update_waits (a := top) (x := if named then .waitStart else .waitSetid)
    (restPc_waits masterId order top ((p, i) :: st)) (by cases named <;> trivial)
  have hat := pc_of_pcs hpc
  rcases next_single_cases (blocked_of_pcs hpc hwaits) he hs with
    ⟨hcall, -⟩ | ⟨k, m, hcall, -, rfl⟩ | ⟨_, m, r, -, hq, -, rfl⟩
  · cases started <;> simp [program, call, hat] at hcall
  · -- the parent sends the word to begin
    cases started with
    | true => simp [program, call, hat] at hcall
    | false =>
        have hnext : (node p).mem.nextId = ident masterId order top := h.next
        obtain ⟨rfl, rfl⟩ : i = k ∧ ⟨.start, (node p).mem.nodeId, ident masterId order top, 0, 0⟩ =
            m := by
          simpa [program, call, hat, hnext] using hcall
        have hnode : (program nic net p).onSent (node p) =
            { node p with pc := .waitEnd i (ident masterId order top) } := by
          simp [program, onSent, hat, hnext]
        have hmem : mems (Function.update node p
            { node p with pc := .waitEnd i (ident masterId order top) }) = mems node :=
          mems_update_of_eq rfl
        rw [hnode, hwire, Net.put_single]
        have hgo := Inv.starting (a := a) (b := (node p).mem.nodeId) named true (pcs_set hpc
          { node p with pc := .waitEnd i (ident masterId order top) }) (hmem ▸ h) hwire ?_
        · simpa using hgo
        · rw [Function.update_of_ne (net.ne hwire).symm]
          exact hid
  · cases named with
    | false =>
        obtain ⟨rfl, rfl⟩ : _ = m ∧ _ = r := by simpa using hq
        exact starting_named started hpc h hwire
    | true =>
        cases started with
        | false => simp at hq
        | true =>
            obtain ⟨rfl, rfl⟩ : _ = m ∧ [] = r := by simpa using hq
            rw [Net.single_nil top 0]
            exact starting_begins hpc h hwire (hid rfl)

/-! ## Reading a report -/

theorem reporting_read {m : Msg} {pend : List Msg}
    (hat : (node p).pc = .waitEnd i (ident masterId order top))
    (h : Reporting net master masterId order top p i st (m :: pend) (mems node)) :
    pcs (Function.update node p ((program nic net p).onRecv i m (node p))) = pcs node ∧
      Reporting net master masterId order top p i st pend
        (mems (Function.update node p ((program nic net p).onRecv i m (node p)))) := by
  obtain ⟨hcmd, -⟩ := h.truthful m (by simp)
  have hnode : (program nic net p).onRecv i m (node p) =
      { node p with mem := { (node p).mem with
        topology := (node p).mem.topology.link nic.interfacesNum
          m.srcNode m.srcIf m.dstNode m.dstIf } } := by
    simp [program, onRecv, hat, hcmd]
  rw [hnode]
  refine ⟨?_, h.read (mems_update node p _)⟩
  rw [pcs_update]
  exact Function.update_eq_self p (pcs node)

omit [Fintype V] in
theorem parent_pc (hpt : p ≠ top) {x : Pc}
    (hpc : pcs node = Function.update (restPc masterId order top ((p, i) :: st)) top x) :
    (node p).pc = .waitEnd i (ident masterId order top) := by
  rw [pc_of_pcs_ne hpc hpt, restPc_cons, Function.update_self]

theorem step_reporting {queue rest : List Msg}
    (hpc : pcs node = Function.update (restPc masterId order top ((p, i) :: st)) top
      (.report j rest))
    (h : Reporting net master masterId order top p i st (queue ++ rest) (mems node))
    (hwire : net.wire p i = some (top, j)) (he : e.Faultless)
    (hs : step net (.single node p i queue) e = some s') : Inv net master masterId order s' := by
  have hat := pc_of_pcs hpc
  rcases next_single_cases (blocked_of_pcs hpc (restPc_waits masterId order top _)) he hs with
    ⟨hcall, -⟩ | ⟨k, m, hcall, -, rfl⟩ | ⟨_, m, r, -, rfl, -, rfl⟩
  · cases rest <;> simp [program, call, hat] at hcall
  · cases rest with
    | cons m' rest =>
        obtain ⟨rfl, rfl⟩ : j = k ∧ m' = m := by simpa [program, call, hat] using hcall
        have hnode : (program nic net top).onSent (node top) =
            { node top with pc := .report j rest } := by
          simp [program, onSent, hat]
        have hmem : mems (Function.update node top { node top with pc := .report j rest }) =
            mems node := mems_update_of_eq rfl
        rw [hnode, net.symm hwire, Net.put_single]
        refine .reporting (pcs_set hpc _) ?_ hwire
        rw [hmem, List.append_assoc]
        exact h
    | nil =>
        obtain ⟨rfl, rfl⟩ : j = k ∧ ⟨.endTopology, (node top).mem.nextId, 0, 0, 0⟩ = m := by
          simpa [program, call, hat] using hcall
        have hnode : (program nic net top).onSent (node top) =
            { node top with pc := .returned } := by
          simp [program, onSent, hat]
        have hmem : mems (Function.update node top { node top with pc := .returned }) =
            mems node := mems_update_of_eq rfl
        rw [hnode, net.symm hwire, Net.put_single]
        have hend : Reporting net master masterId order top p i st queue (mems node) := by
          simpa using h
        refine .closing ?_ (hmem ▸ hend) h.next
        rw [pcs_set hpc, Function.update_eq_self_iff, restPc_of_notMem_stack h.linked.notMem,
          if_pos h.top_mem]
  · obtain ⟨hpc', h'⟩ := reporting_read (parent_pc h.parent_ne hpc) h
    exact .reporting (hpc'.trans hpc) h' hwire

/-- With the last message of the report read, the parent takes over the counter and
goes on. -/
theorem closing_end {next : ℕ}
    (hpc : pcs node = restPc masterId order top ((p, i) :: st))
    (h : Reporting net master masterId order top p i st [] (mems node))
    (hnext : next + 1 = masterId + order.length) :
    Inv net master masterId order (.single (Function.update node p
      ((program nic net p).onRecv i ⟨.endTopology, next, 0, 0, 0⟩ (node p))) p 0 []) := by
  have hroom := h.room
  rw [restPc_cons] at hpc
  have hat : (node p).pc = .waitEnd i (ident masterId order top) := pc_of_pcs hpc
  have hroute : routeSubtree (axiomCodifyRoutingMask i) next 257 (ident masterId order top)
      (node p).mem.routing = some _ :=
    routeSubtree_eq (by omega) 257 (ident masterId order top) (node p).mem.routing (by omega)
  have hnode : (program nic net p).onRecv i ⟨.endTopology, next, 0, 0, 0⟩ (node p) =
      ⟨.poll (i + 1), { (node p).mem with
        nextId := next
        routing := fun k ↦ if ident masterId order top ≤ k ∧ k ≤ next
          then axiomCodifyRoutingMask i else (node p).mem.routing k }⟩ := by
    simp [program, onRecv, hat, endTopology, hroute]
  rw [hnode]
  refine .exploring (pcs_set hpc _) (h.closes hnext (mems_update node p _)) ?_
  rw [Function.update_self]
  exact hnext

theorem step_closing {queue : List Msg} {next : ℕ}
    (hpc : pcs node = restPc masterId order top ((p, i) :: st))
    (h : Reporting net master masterId order top p i st queue (mems node))
    (hnext : next + 1 = masterId + order.length) (he : e.Faultless)
    (hs : step net (.single node p i (queue ++ [⟨.endTopology, next, 0, 0, 0⟩])) e = some s') :
    Inv net master masterId order s' := by
  have hall : ∀ w, (pcs node w).Waits := by
    rw [hpc]
    exact restPc_waits masterId order top _
  obtain ⟨m, r, hq, -, rfl⟩ := next_single_blocked (fun w ↦ blocked_of_waits (hall w)) he hs
  cases queue with
  | nil =>
      obtain ⟨rfl, rfl⟩ : _ = m ∧ [] = r := by simpa using hq
      rw [Net.single_nil p 0]
      exact closing_end hpc h hnext
  | cons m' queue =>
      obtain ⟨rfl, rfl⟩ : m' = m ∧ _ = r := by simpa using hq
      have hat : (node p).pc = .waitEnd i (ident masterId order top) := by
        rw [restPc_cons] at hpc
        exact pc_of_pcs hpc
      obtain ⟨hpc', h'⟩ := reporting_read hat h
      exact .closing (hpc'.trans hpc) h' hnext

omit [Fintype V] in
theorem step_finished
    (hpc : pcs node = Function.update (restPc masterId order master []) master
      (.masterReturned .ok ((masterId + order.length) % 256))) (he : e.Faultless) :
    step net (.single node master 0 []) e ≠ some s' := by
  intro hs
  have hall : ∀ w, (pcs node w).Waits := by
    rw [hpc]
    exact update_waits (restPc_waits masterId order master []) trivial
  obtain ⟨m, r, hq, -⟩ := next_single_blocked (fun w ↦ blocked_of_waits (hall w)) he hs
  cases hq

end Stages

/-- Every faultless step that does not hand out the null id leads to a stage of the
search, in which the boards found before keep their numbers. -/
theorem Inv.step (h : Inv net master masterId order s) (he : e.Faultless)
    (hs : Discovery.step net s e = some s') (hwraps : ¬ Wraps s e) :
    ∃ order', order <+: order' ∧ Inv net master masterId order' s' := by
  cases h with
  | exploring hpc h hnext => exact (step_exploring hpc h hnext he hs).goes
  | asked hpc h hv => exact (step_asked hpc h hv he hs).goes
  | answering hpc h hv hrest => exact (step_answering hpc h hv hrest he hs).goes
  | answered hpc h hv => exact (step_answered hpc h hv he hs).goes
  | greeting hpc h hv hgreet => exact (step_greeting hpc h hv hgreet he hs).goes
  | greeted hpc h hv hgreet hm hif => exact (step_greeted hpc h hv hgreet hm hif he hs).goes
  | numbering hpc h hnext hwire hv hgreet =>
      exact ⟨_, List.prefix_append _ _,
        step_numbering hpc h hnext hwire hv hgreet he hs hwraps⟩
  | starting named started hpc h hwire hid =>
      exact (step_starting named started hpc h hwire hid he hs).goes
  | reporting hpc h hwire => exact (step_reporting hpc h hwire he hs).goes
  | closing hpc h hnext => exact (step_closing hpc h hnext he hs).goes
  | finished hpc h hi => exact absurd hs (step_finished hpc he)

end AxiomApps.Discovery
