import AxiomApps.Routing.SetRouting

/-!
# Delivering the routing tables

The master sends each slave its row of the routing tables, null entries left out, and
then `AXIOM_RT_CMD_END_INFO`; a slave that has read it all replies. When the master has
heard from every slave it starts the flood that makes the boards set their tables.

Delivery messages are addressed by node id and those of the flood by interface, so a
board has a port for each id and one for each interface. Boards are named by their ids.
-/

namespace AxiomApps.Delivery

open FifoNet EventSystem
open SetRouting (RtCmd)

inductive Port
  | peer (id : ℕ)
  | link (i : ℕ)
  deriving DecidableEq, Repr

/-- A message of the routing protocol; those of the flood use only the command. -/
structure Payload where
  command : RtCmd
  nodeId : ℕ
  ifId : IfMask
  deriving DecidableEq, Repr

/-- What `axiom_discovery_master` has at hand when it begins the delivery, the cables
between the boards, and the tables their registers hold until then. The two ids are
8-bit values. -/
structure Job (nic : NicLimits) where
  masterId : ℕ
  lastNode : ℕ
  masterId_lt : masterId < lastNode
  lastNode_le : lastNode ≤ 255
  routingTables : ℕ → RoutingTable
  links : ℕ → ℕ → Option (ℕ × ℕ)
  hardware : ℕ → RoutingTable

inductive Node
  /-- `axiom_delivery_routing_tables`, the loops that send the rows -/
  | sendInfo (dest k : ℕ)
  /-- the loop that sends `AXIOM_RT_CMD_END_INFO` -/
  | sendEnd (dest : ℕ)
  /-- `axiom_wait_rt_received` -/
  | waitReceived (replyReceived : ℕ → Bool) (num : ℕ)
  /-- `axiom_receive_routing_tables` -/
  | receiving (table : RoutingTable) (maxId : ℕ)
  /-- its reply, with the port the last message came by -/
  | replying (src : Port) (table : RoutingTable) (maxNodeId : ℕ)
  /-- its return -/
  | received (table : RoutingTable) (maxNodeId : ℕ)
  /-- `axiom_set_routing_table` -/
  | set (n : SetRouting.Node)
  /-- one of the first three functions has returned an error -/
  | failed
  /-- no board has this id -/
  | absent

variable {nic : NicLimits}

def Job.Slave (D : Job nic) (d : ℕ) : Prop := D.masterId < d ∧ d < D.lastNode

instance (D : Job nic) (d : ℕ) : Decidable (D.Slave d) := inferInstanceAs (Decidable (_ ∧ _))

section Steps

/-- Store one row entry and keep the greatest index seen. -/
def storeInfo (r : RoutingTable × ℕ) (m : Payload) : RoutingTable × ℕ :=
  (Function.update r.1 m.nodeId m.ifId, if r.2 < m.nodeId then m.nodeId else r.2)

def onRecv (nic : NicLimits) (self : ℕ) (src : Port) (m : Payload) : Node → Node
  | .waitReceived replyReceived num =>
      if m.command = .rtReply then
        if replyReceived m.nodeId = false then
          .waitReceived (Function.update replyReceived m.nodeId true) (num + 1)
        else .waitReceived replyReceived num
      else .failed
  | .receiving table maxId =>
      match m.command with
      | .info => .receiving (storeInfo (table, maxId) m).1 (storeInfo (table, maxId) m).2
      | .endInfo => .replying src table (if maxId < self then self else maxId)
      | _ => .receiving table maxId
  | .set n => .set (SetRouting.onRecv nic m.command n)
  | n => n

variable (D : Job nic) (self : ℕ)

def Port.isPeer : Port → Bool
  | .peer _ => true
  | .link _ => false

/-- The calls of the flood, on the ports of the interfaces. -/
def liftCall : Call ℕ RtCmd → Call Port Payload
  | .internal => .internal
  | .send i cmd => .send (.link i) ⟨cmd, 0, 0⟩
  | .recv ports => .recv fun
      | .peer _ => false
      | .link i => ports i
  | .halted => .halted

def flood : SetRouting.Node → Call ℕ RtCmd :=
  SetRouting.call nic fun i ↦ (D.links self i).isSome

def call : Node → Call Port Payload
  | .sendInfo dest k =>
      if dest < D.lastNode ∧ k < D.lastNode ∧ D.routingTables dest k ≠ 0 then
        .send (.peer dest) ⟨.info, k, D.routingTables dest k⟩
      else .internal
  | .sendEnd dest =>
      if dest < D.lastNode then .send (.peer dest) ⟨.endInfo, 0, 0⟩ else .internal
  | .waitReceived _ num =>
      if num ≠ D.lastNode - D.masterId - 1 then .recv Port.isPeer else .internal
  | .receiving _ _ => .recv Port.isPeer
  | .replying src _ _ => .send src ⟨.rtReply, self, 0⟩
  | .received _ _ => .internal
  | .set n => liftCall (flood D self n)
  | .failed => .halted
  | .absent => .halted

/-- The loops go on without a call, and one function follows the other. -/
def onInternal : Node → Node
  | .sendInfo dest k =>
      if dest < D.lastNode then
        if k < D.lastNode then .sendInfo dest (k + 1) else .sendInfo (dest + 1) 0
      else .sendEnd (D.masterId + 1)
  | .sendEnd _ => .waitReceived (fun _ ↦ false) 0
  | .waitReceived _ _ =>
      .set (SetRouting.axiomSetRoutingTable nic true self
        ⟨D.routingTables D.masterId, D.hardware self, 0, 0⟩)
  | .received table _ =>
      .set (SetRouting.axiomSetRoutingTable nic false self ⟨table, D.hardware self, 0, 0⟩)
  | .set n => .set (SetRouting.onInternal nic (self = D.masterId) n)
  | n => n

def onSent : Node → Node
  | .sendInfo dest k => .sendInfo dest (k + 1)
  | .sendEnd dest => .sendEnd (dest + 1)
  | .replying _ table maxNodeId => .received table maxNodeId
  | .set n => .set (SetRouting.onSent (self = D.masterId) n)
  | n => n

def onError : Node → Node
  | .sendInfo _ _ => .failed
  | .sendEnd _ => .failed
  | .waitReceived _ _ => .failed
  | .receiving _ _ => .failed
  | .replying _ _ _ => .failed
  | .set n => .set (SetRouting.onError n)
  | n => n

def program : Program Node Port Payload where
  call := call D self
  onInternal := onInternal D self
  onSent := onSent D self
  onSendError := onError
  onRecv := onRecv nic self
  onRecvError := onError

end Steps

abbrev State := Net ℕ Node Port Payload

def wire (D : Job nic) (u : ℕ) : Port → Option (ℕ × Port)
  | .peer v => some (v, .peer u)
  | .link i => (D.links u i).map fun p ↦ (p.1, .link p.2)

def step (D : Job nic) : State → Event ℕ Port Payload → Option State :=
  next (program D) (wire D)

/-- The master enters `axiom_delivery_routing_tables`, every slave
`axiom_receive_routing_tables`. -/
def init (D : Job nic) : State where
  node w :=
    if w = D.masterId then .sendInfo (D.masterId + 1) 0
    else if D.Slave w then .receiving (fun _ ↦ 0) 0 else .absent
  chan _ _ := []

def reply (d : ℕ) : Payload := ⟨.rtReply, d, 0⟩

def Node.Replied : Node → Prop
  | .received _ _ => True
  | .set _ => True
  | _ => False

instance (n : Node) : Decidable n.Replied :=
  match n with
  | .received _ _ => .isTrue trivial
  | .set _ => .isTrue trivial
  | .sendInfo _ _ | .sendEnd _ | .waitReceived _ _ | .receiving _ _ | .replying _ _ _ | .failed
  | .absent => .isFalse id

/-- The network makes up no message except copies of replies that have been sent. -/
def Genuine (D : Job nic) (s : State) : Event ℕ Port Payload → Prop
  | .stray u (.peer d) m => u = D.masterId ∧ D.Slave d ∧ (s.node d).Replied ∧ m = reply d
  | .stray _ (.link _) _ => False
  | _ => True

instance (D : Job nic) (s : State) (e : Event ℕ Port Payload) : Decidable (Genuine D s e) :=
  match e with
  | .stray _ (.peer _) _ => inferInstanceAs (Decidable (_ ∧ _ ∧ _ ∧ _))
  | .stray _ (.link _) _ => .isFalse id
  | .internal _ | .sent _ | .sendError _ | .received _ _ _ | .recvError _ => .isTrue trivial

/-! ## What is sent to one slave -/

namespace Job

variable (D : Job nic) {d k n : ℕ}

/-- The message that carries entry `k` of a row, if it is not null. -/
def info (d k : ℕ) : Option Payload :=
  if D.routingTables d k ≠ 0 then some ⟨.info, k, D.routingTables d k⟩ else none

theorem info_of_ne (h : D.routingTables d k ≠ 0) :
    D.info d k = some ⟨.info, k, D.routingTables d k⟩ := if_pos h

theorem info_of_eq (h : D.routingTables d k = 0) : D.info d k = none := if_neg (not_not.mpr h)

def infos (d k : ℕ) : List Payload :=
  (List.range' k (D.lastNode - k)).filterMap (D.info d)

def script (d : ℕ) : List Payload := D.infos d 0 ++ [⟨.endInfo, 0, 0⟩]

theorem infos_of_le (hk : D.lastNode ≤ k) : D.infos d k = [] := by
  rw [infos, Nat.sub_eq_zero_of_le hk, List.range'_zero, List.filterMap_nil]

theorem infos_of_lt (hk : k < D.lastNode) :
    D.infos d k = (D.info d k).toList ++ D.infos d (k + 1) := by
  have hlen : D.lastNode - k = D.lastNode - (k + 1) + 1 := by omega
  rw [infos, hlen, List.range'_succ, List.filterMap_cons]
  cases D.info d k <;> rfl

theorem command_of_mem_infos {m : Payload} (hm : m ∈ D.infos d k) : m.command = .info := by
  obtain ⟨x, -, hx⟩ := List.mem_filterMap.mp hm
  simp only [info] at hx
  split at hx
  · cases hx
    rfl
  · cases hx

/-- What the master, where it stands, has still to send to slave `d`. -/
def pending (d : ℕ) : Node → List Payload
  | .sendInfo dest k =>
      if d < dest then [⟨.endInfo, 0, 0⟩]
      else (if d = dest then D.infos d k else D.infos d 0) ++ [⟨.endInfo, 0, 0⟩]
  | .sendEnd dest => if d < dest then [] else [⟨.endInfo, 0, 0⟩]
  | _ => []

/-- The row of slave `d` as it has to arrive. -/
def row (d : ℕ) : RoutingTable := fun k ↦ if k < D.lastNode then D.routingTables d k else 0

/-- The slave's results: its row, and the larger of its id and the greatest index with
an entry. -/
def Exact (d : ℕ) (table : RoutingTable) (maxNodeId : ℕ) : Prop :=
  table = D.row d ∧
    IsGreatest {k | k = d ∨ (k < D.lastNode ∧ D.routingTables d k ≠ 0)} maxNodeId

/-- Reading entries below `n` in order gives the row up to there. -/
theorem foldl_storeInfo (d n : ℕ) :
    let r := ((List.range n).filterMap (D.info d)).foldl storeInfo (fun _ ↦ 0, 0)
    (∀ k, r.1 k = if k < n then D.routingTables d k else 0) ∧
      (∀ k < n, D.routingTables d k ≠ 0 → k ≤ r.2) ∧
      (r.2 = 0 ∨ (r.2 < n ∧ D.routingTables d r.2 ≠ 0)) := by
  induction n with
  | zero => simp
  | succ n ih =>
      obtain ⟨htable, hmax, hmem⟩ := ih
      simp only [List.range_succ, List.filterMap_append, List.foldl_append]
      generalize ((List.range n).filterMap (D.info d)).foldl storeInfo (fun _ ↦ 0, 0) = r at *
      by_cases hzero : D.routingTables d n = 0
      · have hnone : [n].filterMap (D.info d) = [] := by
          rw [List.filterMap_cons, D.info_of_eq hzero, List.filterMap_nil]
        rw [hnone, List.foldl_nil]
        refine ⟨fun k ↦ ?_, fun k hk hne ↦ ?_, hmem.imp_right fun h ↦ ⟨by omega, h.2⟩⟩
        · rw [htable]
          rcases Nat.lt_trichotomy k n with hk | rfl | hk
          · rw [if_pos hk, if_pos (by omega)]
          · simp [hzero]
          · rw [if_neg (by omega), if_neg (by omega)]
        · rcases Nat.lt_succ_iff_lt_or_eq.mp hk with hk | rfl
          · exact hmax k hk hne
          · exact absurd hzero hne
      · have hsome : [n].filterMap (D.info d) = [⟨.info, n, D.routingTables d n⟩] := by
          rw [List.filterMap_cons, D.info_of_ne hzero, List.filterMap_nil]
        rw [hsome, List.foldl_cons, List.foldl_nil]
        have hle : (storeInfo r ⟨.info, n, D.routingTables d n⟩).2 = n := by
          simp only [storeInfo]
          rcases hmem with h | h <;> split <;> omega
        refine ⟨fun k ↦ ?_, fun k hk _ ↦ ?_, .inr ⟨?_, ?_⟩⟩
        · simp only [storeInfo]
          by_cases hk : k = n
          · subst hk
            simp
          · rw [Function.update_of_ne hk, htable]
            congr 1
            simp only [eq_iff_iff]
            omega
        · rw [hle]
          omega
        · rw [hle]
          omega
        · rw [hle]
          exact hzero

theorem exact_of_infos {table : RoutingTable} {maxId : ℕ} (hd : D.Slave d)
    (h : (table, maxId) = (D.infos d 0).foldl storeInfo (fun _ ↦ 0, 0)) :
    D.Exact d table (if maxId < d then d else maxId) := by
  obtain ⟨htable, hmax, hmem⟩ := D.foldl_storeInfo d D.lastNode
  rw [List.range_eq_range'] at htable hmax hmem
  change (table, maxId) = ((List.range' 0 (D.lastNode - 0)).filterMap (D.info d)).foldl
    storeInfo (fun _ ↦ 0, 0) at h
  rw [Nat.sub_zero] at h
  rw [← h] at htable hmax hmem
  refine ⟨funext htable, ?_, ?_⟩
  · by_cases hlt : maxId < d
    · simp [hlt]
    · have hpos := hd.1
      rw [if_neg hlt]
      exact .inr (hmem.resolve_left (by omega))
  · rintro k (rfl | ⟨hk, hne⟩)
    · split <;> omega
    · have hle := hmax k hk hne
      change k ≤ maxId at hle
      split <;> omega

/-- A step of the master that sends nothing leaves all scripts as they are. -/
theorem pending_onInternal {node : Node} (hd : D.Slave d) (self : ℕ)
    (hcall : call D self node = .internal) :
    D.pending d (onInternal D self node) = D.pending d node := by
  cases node with
  | sendInfo dest k =>
      by_cases hdest : dest < D.lastNode
      · by_cases hk : k < D.lastNode
        · have hzero : D.routingTables dest k = 0 := by
            by_contra hne
            simp only [call, if_pos (⟨hdest, hk, hne⟩ : _ ∧ _ ∧ _)] at hcall
            cases hcall
          have hinfos : D.infos dest k = D.infos dest (k + 1) := by
            rw [D.infos_of_lt hk, D.info_of_eq hzero]
            rfl
          simp only [onInternal, hdest, hk, if_true, pending]
          by_cases heq : d = dest
          · subst heq
            simp [hinfos]
          · simp [heq]
        · simp only [onInternal, hdest, hk, if_true, if_false, pending]
          rcases Nat.lt_trichotomy d dest with hlt | rfl | hgt
          · rw [if_pos (by omega), if_pos hlt]
          · simp [D.infos_of_le (not_lt.mp hk)]
          · have h₁ : ¬ d < dest + 1 := by omega
            have h₂ : ¬ d < dest := by omega
            simp only [h₁, h₂, hgt.ne', if_false, ite_self]
      · have hlt : d < dest := by
          have := hd.2
          omega
        have hge : ¬ d < D.masterId + 1 := by
          have := hd.1
          omega
        simp only [onInternal, hdest, if_false, pending, hlt, if_true, hge]
  | sendEnd dest =>
      have hdest : ¬ dest < D.lastNode := by
        intro hlt
        simp [call, hlt] at hcall
      have hlt : d < dest := by
        have := hd.2
        omega
      simp only [onInternal, pending, hlt, if_true]
  | _ => rfl

/-- A message sent by the master is the next one of the script of its destination. -/
theorem pending_onSent {node : Node} {self : ℕ} {i : Port} {m : Payload}
    (hcall : call D self node = .send i m)
    (hnode : (∃ dest k, node = .sendInfo dest k) ∨ ∃ dest, node = .sendEnd dest) :
    ∃ dest, i = .peer dest ∧ dest < D.lastNode ∧
      D.pending dest node = m :: D.pending dest (onSent D self node) ∧
      ∀ d ≠ dest, D.pending d (onSent D self node) = D.pending d node := by
  rcases hnode with ⟨dest, k, rfl⟩ | ⟨dest, rfl⟩
  · have hcond : dest < D.lastNode ∧ k < D.lastNode ∧ D.routingTables dest k ≠ 0 := by
      by_contra hnot
      simp only [call, if_neg hnot] at hcall
      cases hcall
    simp only [call, if_pos hcond, Call.send.injEq] at hcall
    obtain ⟨rfl, rfl⟩ := hcall
    refine ⟨dest, rfl, hcond.1, ?_, fun d hne ↦ ?_⟩
    · simp only [onSent, pending, lt_irrefl, if_false, if_true]
      rw [D.infos_of_lt hcond.2.1, D.info_of_ne hcond.2.2]
      rfl
    · simp [onSent, pending, hne]
  · have hdest : dest < D.lastNode := by
      by_contra hnot
      simp only [call, if_neg hnot] at hcall
      cases hcall
    simp only [call, if_pos hdest, Call.send.injEq] at hcall
    obtain ⟨rfl, rfl⟩ := hcall
    refine ⟨dest, rfl, hdest, ?_, fun d hne ↦ ?_⟩
    · simp [onSent, pending]
    · have hiff : d < dest + 1 ↔ d < dest := by omega
      simp only [onSent, pending, hiff]

end Job

/-! ## The roles of the boards -/

/-- Inside the flood, a board past its first wait has written its table, unless a call
has failed. -/
def Wrote (n : SetRouting.Node) : Prop :=
  match n.pc with
  | .waitFirst => True
  | .returned _ => True
  | _ => 0 < n.mem.writes

/-- Where a board can be: the master in its three functions, a slave in its two. -/
def Role (D : Job nic) (w : ℕ) : Node → Prop
  | .sendInfo dest _ => w = D.masterId ∧ D.masterId < dest
  | .sendEnd dest => w = D.masterId ∧ D.masterId < dest
  | .waitReceived _ _ => w = D.masterId
  | .receiving _ _ => D.Slave w
  | .replying _ _ _ => D.Slave w
  | .received _ _ => D.Slave w
  | .set n => (w = D.masterId ∨ D.Slave w) ∧ Wrote n
  | .failed => True
  | .absent => w ≠ D.masterId ∧ ¬ D.Slave w

section Flood

variable (master : Bool) (cmd : RtCmd) (n : SetRouting.Node)

theorem Wrote.onInternal (h : Wrote n) : Wrote (SetRouting.onInternal nic master n) := by
  obtain ⟨pc, m⟩ := n
  cases pc with
  | sending i =>
      simp only [SetRouting.onInternal]
      split
      · exact h
      · cases master <;> exact h
  | masterReceiving i =>
      simp only [SetRouting.onInternal]
      split
      · exact h
      · trivial
  | _ => trivial

theorem Wrote.onSent (h : Wrote n) : Wrote (SetRouting.onSent master n) := by
  obtain ⟨pc, m⟩ := n
  cases pc with
  | sending i => cases master <;> exact h
  | _ => exact h

theorem Wrote.onRecv (h : Wrote n) : Wrote (SetRouting.onRecv nic cmd n) := by
  obtain ⟨pc, m⟩ := n
  cases pc with
  | waitFirst =>
      simp only [SetRouting.onRecv]
      split
      · exact Nat.succ_pos _
      · trivial
  | _ => exact h

@[simp] theorem writes_onInternal :
    (SetRouting.onInternal nic master n).mem.writes = n.mem.writes := by
  unfold SetRouting.onInternal
  split <;> try split
  all_goals rfl

@[simp] theorem writes_onSent : (SetRouting.onSent master n).mem.writes = n.mem.writes := by
  unfold SetRouting.onSent
  cases master <;> split <;> rfl

@[simp] theorem routingTable_onInternal :
    (SetRouting.onInternal nic master n).mem.routingTable = n.mem.routingTable := by
  unfold SetRouting.onInternal
  split <;> try split
  all_goals rfl

@[simp] theorem routingTable_onSent :
    (SetRouting.onSent master n).mem.routingTable = n.mem.routingTable := by
  unfold SetRouting.onSent
  cases master <;> split <;> rfl

@[simp] theorem routingTable_onRecv :
    (SetRouting.onRecv nic cmd n).mem.routingTable = n.mem.routingTable := by
  unfold SetRouting.onRecv
  split <;> try split
  all_goals rfl

end Flood

variable {D : Job nic} {s s' : State} {e : Event ℕ Port Payload}
variable {tr : List (State × Event ℕ Port Payload)}

namespace Role

variable {u : ℕ} {n : Node}

theorem onInternal (h : Role D u n) : Role D u (onInternal D u n) := by
  cases n with
  | sendInfo dest k =>
      simp only [Delivery.onInternal]
      split
      · split
        · exact h
        · exact ⟨h.1, Nat.lt_succ_of_lt h.2⟩
      · exact ⟨h.1, Nat.lt_succ_self _⟩
  | sendEnd dest => exact h.1
  | waitReceived r num => exact ⟨.inl h, Nat.succ_pos _⟩
  | received table maxNodeId => exact ⟨.inr h, trivial⟩
  | set n => exact ⟨h.1, Wrote.onInternal _ n h.2⟩
  | _ => exact h

theorem onSent (h : Role D u n) : Role D u (onSent D u n) := by
  cases n with
  | sendEnd dest => exact ⟨h.1, Nat.lt_succ_of_lt h.2⟩
  | set n => exact ⟨h.1, Wrote.onSent _ n h.2⟩
  | _ => exact h

theorem onRecv (i : Port) (m : Payload) (h : Role D u n) : Role D u (onRecv nic u i m n) := by
  cases n with
  | waitReceived r num =>
      simp only [Delivery.onRecv]
      split
      · split <;> exact h
      · trivial
  | receiving table maxId =>
      simp only [Delivery.onRecv]
      split <;> exact h
  | set n => exact ⟨h.1, Wrote.onRecv _ n h.2⟩
  | _ => exact h

theorem onError (h : Role D u n) : Role D u (onError n) := by
  cases n with
  | received table maxNodeId => exact h
  | set n => exact ⟨h.1, trivial⟩
  | absent => exact h
  | _ => trivial

end Role

theorem role_init (w : ℕ) : Role D w ((init D).node w) := by
  by_cases hw : w = D.masterId
  · simp [init, hw, Role]
  · by_cases hs : D.Slave w
    · simp [init, hw, hs, Role]
    · simp [init, hw, hs, Role]

theorem role_step (h : ∀ w, Role D w (s.node w)) (hs : step D s e = some s') (w : ℕ) :
    Role D w (s'.node w) :=
  next_local (P := Role D) (fun _ _ ↦ Role.onInternal) (fun _ _ ↦ Role.onSent)
    (fun _ _ ↦ Role.onError) (fun _ _ i m ↦ Role.onRecv i m) (fun _ _ ↦ Role.onError) h hs w

theorem Node.replied_iff {n : Node} :
    n.Replied ↔ (∃ table maxNodeId, n = .received table maxNodeId) ∨ ∃ f, n = .set f := by
  cases n <;> simp [Replied]

theorem replied_step (hs : step D s e = some s') (w : ℕ) (h : (s.node w).Replied) :
    (s'.node w).Replied := by
  refine next_local (P := fun w n ↦ (s.node w).Replied → n.Replied) ?_ ?_ ?_ ?_ ?_
    (fun _ hr ↦ hr) hs w h
  · intro u n hn hr
    rcases Node.replied_iff.mp (hn hr) with ⟨table, maxNodeId, rfl⟩ | ⟨f, rfl⟩ <;> trivial
  · intro u n hn hr
    rcases Node.replied_iff.mp (hn hr) with ⟨table, maxNodeId, rfl⟩ | ⟨f, rfl⟩ <;> trivial
  · intro u n hn hr
    rcases Node.replied_iff.mp (hn hr) with ⟨table, maxNodeId, rfl⟩ | ⟨f, rfl⟩ <;> trivial
  · intro u n i m hn hr
    rcases Node.replied_iff.mp (hn hr) with ⟨table, maxNodeId, rfl⟩ | ⟨f, rfl⟩ <;> trivial
  · intro u n hn hr
    rcases Node.replied_iff.mp (hn hr) with ⟨table, maxNodeId, rfl⟩ | ⟨f, rfl⟩ <;> trivial

/-! ## Rows arrive in order -/

/-- What a slave's state says about the messages it has taken. -/
def Holds (D : Job nic) (d : ℕ) (taken : List Payload) : Node → Prop
  | .receiving table maxId => (table, maxId) = taken.foldl storeInfo (fun _ ↦ 0, 0)
  | .replying src table maxNodeId => src = .peer D.masterId ∧ D.Exact d table maxNodeId
  | .received table maxNodeId => D.Exact d table maxNodeId
  | .set n => n.mem.routingTable = Function.update (D.row d) d (1#8 <<< nic.routingLoopbackIf)
  | .failed => True
  | _ => False

/-- What slave `d` has taken, what waits for it, and what the master has still to send
are the script. -/
def InOrder (D : Job nic) (d : ℕ) (queue : List Payload) (master slave : Node) : Prop :=
  ∃ taken rest, taken ++ queue ++ rest = D.script d ∧
    (master ≠ .failed → rest = D.pending d master) ∧ Holds D d taken slave

namespace InOrder

variable {d : ℕ} {queue : List Payload} {master slave : Node} {i : Port} {m : Payload}

theorem master_internal (h : InOrder D d queue master slave) (hd : D.Slave d) {u : ℕ}
    (hcall : call D u master = .internal) : InOrder D d queue (onInternal D u master) slave := by
  obtain ⟨taken, rest, hscript, hrest, hholds⟩ := h
  refine ⟨taken, rest, hscript, fun _ ↦ ?_, hholds⟩
  rw [D.pending_onInternal hd u hcall]
  apply hrest
  rintro rfl
  cases hcall

theorem master_error (h : InOrder D d queue master slave) :
    InOrder D d queue (onError master) slave := by
  obtain ⟨taken, rest, hscript, hrest, hholds⟩ := h
  refine ⟨taken, rest, hscript, fun hne ↦ ?_, hholds⟩
  cases master with
  | received table maxNodeId => exact hrest (by simp)
  | set n => exact hrest (by simp)
  | absent => exact hrest (by simp)
  | _ => exact absurd rfl hne

theorem master_recv (h : InOrder D d queue master slave) {u : ℕ}
    (hrole : Role D D.masterId master) : InOrder D d queue (onRecv nic u i m master) slave := by
  obtain ⟨taken, rest, hscript, hrest, hholds⟩ := h
  refine ⟨taken, rest, hscript, fun hne ↦ ?_, hholds⟩
  cases master with
  | waitReceived r num =>
      have hpend : D.pending d (onRecv nic u i m (.waitReceived r num)) = [] := by
        simp only [onRecv]
        split
        · split <;> rfl
        · rfl
      rw [hpend]
      exact hrest (by simp)
  | receiving table maxId => exact absurd hrole.1 (lt_irrefl _)
  | set n => exact hrest (by simp)
  | _ => exact hrest hne

theorem master_sent (h : InOrder D d queue master slave) {u : ℕ}
    (hcall : call D u master = .send i m) (hrole : Role D D.masterId master) :
    InOrder D d (if i = .peer d then queue ++ [m] else queue) (onSent D u master) slave := by
  obtain ⟨taken, rest, hscript, hrest, hholds⟩ := h
  have hsplit : (∃ n, master = .set n) ∨
      ((∃ dest k, master = .sendInfo dest k) ∨ ∃ dest, master = .sendEnd dest) := by
    cases master with
    | sendInfo dest k => exact .inr (.inl ⟨dest, k, rfl⟩)
    | sendEnd dest => exact .inr (.inr ⟨dest, rfl⟩)
    | replying src table maxNodeId => exact absurd hrole.1 (lt_irrefl _)
    | set n => exact .inl ⟨n, rfl⟩
    | waitReceived r num =>
        simp only [call] at hcall
        split at hcall <;> cases hcall
    | _ => cases hcall
  rcases hsplit with ⟨n, rfl⟩ | hnode
  · -- the flood uses the other ports
    have hi : i ≠ .peer d := by
      rintro rfl
      simp only [call] at hcall
      cases hflood : flood D u n <;> rw [hflood] at hcall <;> simp [liftCall] at hcall
    rw [if_neg hi]
    exact ⟨taken, rest, hscript, fun _ ↦ hrest (by simp), hholds⟩
  · obtain ⟨dest, rfl, -, hnext, hother⟩ := D.pending_onSent hcall hnode
    have hne : master ≠ .failed := by
      rintro rfl
      rcases hnode with ⟨_, _, h⟩ | ⟨_, h⟩ <;> cases h
    have hrest := hrest hne
    by_cases hdest : d = dest
    · subst hdest
      rw [if_pos rfl]
      refine ⟨taken, _, ?_, fun _ ↦ rfl, hholds⟩
      rw [← hscript, hrest, hnext]
      simp
    · rw [if_neg (by simpa using Ne.symm hdest)]
      exact ⟨taken, rest, hscript, fun _ ↦ by rw [hrest, hother d hdest], hholds⟩

theorem slave_internal (h : InOrder D d queue master slave) :
    InOrder D d queue master (onInternal D d slave) := by
  obtain ⟨taken, rest, hscript, hrest, hholds⟩ := h
  refine ⟨taken, rest, hscript, hrest, ?_⟩
  cases slave with
  | received table maxNodeId =>
      obtain ⟨rfl, -⟩ := hholds
      rfl
  | set n => exact (routingTable_onInternal _ n).trans hholds
  | sendInfo | sendEnd | waitReceived => exact hholds.elim
  | _ => exact hholds

theorem slave_sent (h : InOrder D d queue master slave) :
    InOrder D d queue master (onSent D d slave) := by
  obtain ⟨taken, rest, hscript, hrest, hholds⟩ := h
  refine ⟨taken, rest, hscript, hrest, ?_⟩
  cases slave with
  | replying src table maxNodeId => exact hholds.2
  | set n => exact (routingTable_onSent _ n).trans hholds
  | sendInfo | sendEnd => exact hholds.elim
  | _ => exact hholds

theorem slave_error (h : InOrder D d queue master slave) :
    InOrder D d queue master (onError slave) := by
  obtain ⟨taken, rest, hscript, hrest, hholds⟩ := h
  refine ⟨taken, rest, hscript, hrest, ?_⟩
  cases slave with
  | received table maxNodeId => exact hholds
  | set n => exact hholds
  | absent => exact hholds
  | _ => trivial

/-- Outside `axiom_receive_routing_tables` a slave reads the messages of the flood. -/
theorem slave_recv_flood (h : InOrder D d queue master (.set n)) (src : Port) :
    InOrder D d queue master (onRecv nic d src m (.set n)) := by
  obtain ⟨taken, rest, hscript, hrest, hholds⟩ := h
  exact ⟨taken, rest, hscript, hrest, (routingTable_onRecv _ n).trans hholds⟩

/-- Inside it, a slave reads the next message of its script. -/
theorem slave_recv_row (hd : D.Slave d) {table : RoutingTable} {maxId : ℕ}
    (h : InOrder D d (m :: queue) master (.receiving table maxId)) :
    InOrder D d queue master (onRecv nic d (.peer D.masterId) m (.receiving table maxId)) := by
  obtain ⟨taken, rest, hscript, hrest, hfold⟩ := h
  refine ⟨taken ++ [m], rest, by simpa using hscript, hrest, ?_⟩
  have hmem : m ∈ D.script d := by
    rw [← hscript]
    simp
  rcases List.mem_append.mp hmem with hm | hm
  · simp only [onRecv, D.command_of_mem_infos hm, Holds]
    rw [List.foldl_append, ← hfold]
    rfl
  · -- the last message: all of the row has been read before it
    obtain rfl := List.mem_singleton.mp hm
    have hend : (⟨.endInfo, 0, 0⟩ : Payload) ∉ D.infos d 0 := fun hx ↦
      absurd (D.command_of_mem_infos hx) (by simp)
    have hcut : D.infos d 0 ++ ⟨.endInfo, 0, 0⟩ :: [] =
        taken ++ ⟨.endInfo, 0, 0⟩ :: (queue ++ rest) := by
      rw [← Job.script, ← hscript]
      simp
    obtain ⟨rfl, -, -⟩ := (List.append_cons_inj_of_notMem hend (by simp)).mp hcut
    exact ⟨rfl, D.exact_of_infos hd hfold⟩

end InOrder

/-! ## The calls of a board -/

theorem send_cases {u : ℕ} {n : Node} {i : Port} {m : Payload} (hrole : Role D u n)
    (hcall : call D u n = .send i m) :
    (u = D.masterId ∧ (∀ f, n ≠ .set f) ∧ ∃ dest, D.Slave dest ∧ i = .peer dest) ∨
      (D.Slave u ∧ ∃ table maxNodeId, n = .replying i table maxNodeId ∧ m = reply u) ∨
      ∃ f k, n = .set f ∧ i = .link k ∧ 0 < f.mem.writes := by
  cases n with
  | sendInfo dest k =>
      have hcond : dest < D.lastNode ∧ k < D.lastNode ∧ D.routingTables dest k ≠ 0 := by
        by_contra hnot
        simp only [call, if_neg hnot] at hcall
        cases hcall
      simp only [call, if_pos hcond, Call.send.injEq] at hcall
      exact .inl ⟨hrole.1, by simp, dest, ⟨hrole.2, hcond.1⟩, hcall.1.symm⟩
  | sendEnd dest =>
      have hdest : dest < D.lastNode := by
        by_contra hnot
        simp only [call, if_neg hnot] at hcall
        cases hcall
      simp only [call, if_pos hdest, Call.send.injEq] at hcall
      exact .inl ⟨hrole.1, by simp, dest, ⟨hrole.2, hdest⟩, hcall.1.symm⟩
  | waitReceived r num =>
      simp only [call] at hcall
      split at hcall <;> cases hcall
  | replying src table maxNodeId =>
      cases hcall
      exact .inr (.inl ⟨hrole, table, maxNodeId, rfl, rfl⟩)
  | set f =>
      obtain ⟨pc, mem⟩ := f
      cases pc with
      | sending k =>
          refine .inr (.inr ⟨_, k, rfl, ?_, hrole.2⟩)
          simp only [call, flood, SetRouting.call] at hcall
          split at hcall
          · cases hcall
            rfl
          · cases hcall
      | masterReceiving k =>
          simp only [call, flood, SetRouting.call] at hcall
          split at hcall <;> cases hcall
      | slaveReceiving =>
          simp only [call, flood, SetRouting.call] at hcall
          split at hcall <;> cases hcall
      | _ => cases hcall
  | _ => cases hcall

theorem recv_cases {u : ℕ} {n : Node} {ports : Port → Bool} (hcall : call D u n = .recv ports) :
    (ports = Port.isPeer ∧ ((∃ r num, n = .waitReceived r num) ∨
        ∃ table maxId, n = .receiving table maxId)) ∨
      ∃ f, n = .set f ∧ ∀ v, ports (.peer v) = false := by
  cases n with
  | sendInfo dest k =>
      simp only [call] at hcall
      split at hcall <;> cases hcall
  | sendEnd dest =>
      simp only [call] at hcall
      split at hcall <;> cases hcall
  | waitReceived r num =>
      simp only [call] at hcall
      split at hcall
      · cases hcall
        exact .inl ⟨rfl, .inl ⟨r, num, rfl⟩⟩
      · cases hcall
  | receiving table maxId =>
      cases hcall
      exact .inl ⟨rfl, .inr ⟨table, maxId, rfl⟩⟩
  | set f =>
      refine .inr ⟨f, rfl, fun v ↦ ?_⟩
      simp only [call] at hcall
      cases hflood : flood D u f with
      | recv p =>
          rw [hflood] at hcall
          cases hcall
          rfl
      | _ =>
          rw [hflood] at hcall
          cases hcall
  | _ => cases hcall

theorem onInternal_eq_waitReceived {u : ℕ} {n : Node} {r : ℕ → Bool} {num : ℕ}
    (h : onInternal D u n = .waitReceived r num) : (∀ k, r k = false) ∧ num = 0 := by
  cases n with
  | sendInfo dest k =>
      simp only [onInternal] at h
      split at h
      · split at h <;> cases h
      · cases h
  | sendEnd dest =>
      cases h
      exact ⟨fun _ ↦ rfl, rfl⟩
  | _ => cases h

/-- A board enters the flood from `axiom_wait_rt_received`, or without having written. -/
theorem onInternal_eq_set {u : ℕ} {n : Node} {f : SetRouting.Node}
    (h : onInternal D u n = .set f) :
    (∃ r num, n = .waitReceived r num) ∨ f.mem.writes = 0 ∨
      ∃ f₀, n = .set f₀ ∧ f.mem.writes = f₀.mem.writes := by
  cases n with
  | sendInfo dest k =>
      simp only [onInternal] at h
      split at h
      · split at h <;> cases h
      · cases h
  | waitReceived r num => exact .inl ⟨r, num, rfl⟩
  | received table maxNodeId =>
      cases h
      exact .inr (.inl rfl)
  | set f₀ =>
      cases h
      exact .inr (.inr ⟨f₀, rfl, writes_onInternal _ f₀⟩)
  | _ => cases h

theorem onSent_eq_set {u : ℕ} {n : Node} {f : SetRouting.Node} (h : onSent D u n = .set f) :
    ∃ f₀, n = .set f₀ ∧ f.mem.writes = f₀.mem.writes := by
  cases n with
  | set f₀ =>
      cases h
      exact ⟨f₀, rfl, writes_onSent _ f₀⟩
  | _ => cases h

theorem onSent_ne_waitReceived {u : ℕ} {n : Node} {i : Port} {m : Payload}
    (hcall : call D u n = .send i m) (r : ℕ → Bool) (num : ℕ) :
    onSent D u n ≠ .waitReceived r num := by
  cases n with
  | waitReceived r' num' =>
      simp only [call] at hcall
      split at hcall <;> cases hcall
  | _ => simp [onSent]

/-! ## The invariant -/

def AllReplied (D : Job nic) (s : State) : Prop := ∀ d, D.Slave d → (s.node d).Replied

/-- Every slave's row arrives in order, the master only hears replies of slaves that have
sent one and counts them once each, and nothing of the flood happens before all have. -/
structure Inv (D : Job nic) (s : State) : Prop where
  role : ∀ w, Role D w (s.node w)
  row : ∀ d, D.Slave d →
    InOrder D d (s.chan d (.peer D.masterId)) (s.node D.masterId) (s.node d)
  peers : ∀ d v, D.Slave d → v ≠ D.masterId → s.chan d (.peer v) = []
  replies : ∀ v, ∀ m ∈ s.chan D.masterId (.peer v),
    m = reply v ∧ D.Slave v ∧ (s.node v).Replied
  counted : ∀ r num, s.node D.masterId = .waitReceived r num →
    (∀ k, r k = true → D.Slave k ∧ (s.node k).Replied) ∧
      num = ((Finset.Ioo D.masterId D.lastNode).filter fun k ↦ r k = true).card
  wrote : ∀ w f, s.node w = .set f → 0 < f.mem.writes → AllReplied D s
  floods : ∀ w i, s.chan w (.link i) ≠ [] → AllReplied D s

theorem inv_init : Inv D (init D) := by
  refine ⟨role_init, fun d hd ↦ ?_, fun _ _ _ _ ↦ rfl, fun v m hm ↦ ?_, ?_, ?_,
    fun w i h ↦ absurd rfl h⟩
  · refine ⟨[], D.script d, rfl, fun _ ↦ ?_, ?_⟩
    · have hge : ¬ d < D.masterId + 1 := by
        have := hd.1
        omega
      simp only [init, if_true, Job.pending, hge, if_false, ite_self]
      rfl
    · have hne : d ≠ D.masterId := hd.1.ne'
      simp [init, hne, hd, Holds]
  · cases hm
  · intro r num h
    simp [init] at h
  · intro w f h
    simp only [init] at h
    split at h
    · cases h
    · split at h <;> cases h

namespace Inv

variable {u : ℕ} {i : Port} {m : Payload}

theorem slave_ne_master {d : ℕ} (hd : D.Slave d) : d ≠ D.masterId := hd.1.ne'

/-- When the master has counted as many replies as there are slaves, all have replied. -/
theorem allReplied_of_counted (h : Inv D s) {r : ℕ → Bool} {num : ℕ}
    (hnode : s.node D.masterId = .waitReceived r num) (hnum : num = D.lastNode - D.masterId - 1) :
    AllReplied D s := by
  obtain ⟨hr, hcard⟩ := h.counted r num hnode
  have hall : (Finset.Ioo D.masterId D.lastNode).filter (fun k ↦ r k = true) =
      Finset.Ioo D.masterId D.lastNode := by
    apply Finset.eq_of_subset_of_card_le (Finset.filter_subset _ _)
    rw [Nat.card_Ioo, ← hcard, hnum]
  intro d hd
  have hmem : d ∈ (Finset.Ioo D.masterId D.lastNode).filter fun k ↦ r k = true := by
    rw [hall]
    exact Finset.mem_Ioo.mpr hd
  exact (hr d (Finset.mem_filter.mp hmem).2).2

/-- Counting is not disturbed by steps that leave the master where it is or take it
out of its loop. -/
theorem counted_of (h : Inv D s) (hrep : ∀ w, (s.node w).Replied → (s'.node w).Replied)
    (hmaster : s'.node D.masterId = s.node D.masterId ∨
      ∀ r num, s'.node D.masterId ≠ .waitReceived r num) {r : ℕ → Bool} {num : ℕ}
    (hnode : s'.node D.masterId = .waitReceived r num) :
    (∀ k, r k = true → D.Slave k ∧ (s'.node k).Replied) ∧
      num = ((Finset.Ioo D.masterId D.lastNode).filter fun k ↦ r k = true).card := by
  rcases hmaster with heq | hne
  · obtain ⟨hr, hnum⟩ := h.counted r num (heq ▸ hnode)
    exact ⟨fun k hk ↦ ⟨(hr k hk).1, hrep k (hr k hk).2⟩, hnum⟩
  · exact absurd hnode (hne r num)

theorem row_setNode (h : Inv D s) {n : Node} {d : ℕ} (hd : D.Slave d)
    (hmaster : u = D.masterId →
      InOrder D d (s.chan d (.peer D.masterId)) n (s.node d))
    (hslave : u = d → InOrder D d (s.chan d (.peer D.masterId)) (s.node D.masterId) n) :
    InOrder D d (s.chan d (.peer D.masterId)) ((s.setNode u n).node D.masterId)
      ((s.setNode u n).node d) := by
  have hne := slave_ne_master hd
  by_cases hu : u = D.masterId
  · subst hu
    simpa [hne] using hmaster rfl
  · by_cases hud : u = d
    · subst hud
      simpa [Ne.symm hu] using hslave rfl
    · simpa [Ne.symm hu, Ne.symm hud] using h.row d hd

theorem wrote_setNode (h : Inv D s) (hrep : ∀ w, (s.node w).Replied → (s'.node w).Replied)
    {n : Node} (hnode : s'.node = (s.setNode u n).node)
    (hn : ∀ f, n = .set f → 0 < f.mem.writes → AllReplied D s) {w : ℕ} {f : SetRouting.Node}
    (hw : s'.node w = .set f) (hpos : 0 < f.mem.writes) : AllReplied D s' := by
  intro d hd
  apply hrep
  rw [hnode] at hw
  by_cases hwu : w = u
  · subst hwu
    exact hn f (by simpa using hw) hpos d hd
  · exact h.wrote w f (by simpa [hwu] using hw) hpos d hd

theorem internal (h : Inv D s) (hs : step D s (.internal u) = some s') : Inv D s' := by
  have hrep := replied_step hs
  have hrole := role_step h.role hs
  obtain ⟨hcall, rfl⟩ := next_internal_iff.mp hs
  change call D u (s.node u) = .internal at hcall
  refine ⟨hrole, fun d hd ↦ ?_, h.peers, fun v m hm ↦ ?_, fun r num hn ↦ ?_, fun w f hn hpos ↦ ?_,
    fun w i hne d hd ↦ hrep d (h.floods w i hne d hd)⟩
  · refine h.row_setNode hd ?_ ?_
    · rintro rfl
      exact (h.row d hd).master_internal hd hcall
    · rintro rfl
      exact (h.row u hd).slave_internal
  · obtain ⟨hm, hv, hr⟩ := h.replies v m hm
    exact ⟨hm, hv, hrep v hr⟩
  · by_cases hu : u = D.masterId
    · subst hu
      have hnode : onInternal D D.masterId (s.node D.masterId) = .waitReceived r num := by
        simpa [program] using hn
      obtain ⟨hr, rfl⟩ := onInternal_eq_waitReceived hnode
      simp [hr]
    · exact h.counted_of hrep (.inl (by simp [Ne.symm hu])) hn
  · refine h.wrote_setNode hrep rfl ?_ hn hpos
    intro f hf hpos
    rcases onInternal_eq_set hf with ⟨r, num, hold⟩ | hzero | ⟨f₀, hold, hwrites⟩
    · -- the master leaves its loop when it has counted all replies
      obtain rfl : u = D.masterId := by
        have := h.role u
        rwa [hold] at this
      refine h.allReplied_of_counted hold ?_
      by_contra hnum
      simp [hold, call, hnum] at hcall
    · omega
    · exact h.wrote u f₀ hold (hwrites ▸ hpos)

theorem error (h : Inv D s) (hs : step D s e = some s')
    (he : s' = s.setNode u (onError (s.node u))) : Inv D s' := by
  have hrep := replied_step hs
  have hrole := role_step h.role hs
  subst he
  refine ⟨hrole, fun d hd ↦ ?_, h.peers, fun v m hm ↦ ?_, fun r num hn ↦ ?_, fun w f hn hpos ↦ ?_,
    fun w i hne d hd ↦ hrep d (h.floods w i hne d hd)⟩
  · refine h.row_setNode hd ?_ ?_
    · rintro rfl
      exact (h.row d hd).master_error
    · rintro rfl
      exact (h.row u hd).slave_error
  · obtain ⟨hm, hv, hr⟩ := h.replies v m hm
    exact ⟨hm, hv, hrep v hr⟩
  · refine h.counted_of hrep ?_ hn
    by_cases hu : u = D.masterId
    · subst hu
      refine .inr fun r num hw ↦ ?_
      rw [Net.setNode_node, Function.update_self] at hw
      cases hold : s.node D.masterId <;> rw [hold] at hw <;> cases hw
    · exact .inl (by simp [Ne.symm hu])
  · refine h.wrote_setNode hrep rfl ?_ hn hpos
    intro f hf hpos
    cases hold : s.node u with
    | set f₀ =>
        rw [hold] at hf
        cases hf
        exact h.wrote u f₀ hold hpos
    | _ =>
        rw [hold] at hf
        cases hf

/-- A message sent, but for where it goes: the counting and the writing are not disturbed. -/
theorem of_sent (h : Inv D s) (hs : step D s (.sent u) = some s')
    (hcall : call D u (s.node u) = .send i m)
    (hnode : s'.node = (s.setNode u (onSent D u (s.node u))).node)
    (hrow : ∀ d, D.Slave d →
      InOrder D d (s'.chan d (.peer D.masterId)) (s'.node D.masterId) (s'.node d))
    (hpeers : ∀ d v, D.Slave d → v ≠ D.masterId → s'.chan d (.peer v) = [])
    (hreplies : ∀ v, ∀ m' ∈ s'.chan D.masterId (.peer v), m' ∈ s.chan D.masterId (.peer v) ∨
      m' = reply v ∧ D.Slave v ∧ (s'.node v).Replied)
    (hfloods : ∀ w k, s'.chan w (.link k) ≠ [] → s.chan w (.link k) ≠ [] ∨ AllReplied D s) :
    Inv D s' := by
  have hrep := replied_step hs
  refine ⟨role_step h.role hs, hrow, hpeers, fun v m' hm' ↦ ?_, fun r num hn ↦ ?_,
    fun w f hn hpos ↦ ?_, fun w k hne d hd ↦ hrep d ?_⟩
  · rcases hreplies v m' hm' with hold | hnew
    · obtain ⟨hm, hv, hr⟩ := h.replies v m' hold
      exact ⟨hm, hv, hrep v hr⟩
    · exact hnew
  · refine h.counted_of hrep ?_ hn
    rw [hnode]
    by_cases hu : u = D.masterId
    · subst hu
      refine .inr fun r num hw ↦ onSent_ne_waitReceived hcall r num ?_
      simpa using hw
    · exact .inl (by simp [Ne.symm hu])
  · refine h.wrote_setNode hrep hnode ?_ hn hpos
    intro f hf hpos
    obtain ⟨f₀, hold, hwrites⟩ := onSent_eq_set hf
    exact h.wrote u f₀ hold (hwrites ▸ hpos)
  · rcases hfloods w k hne with hold | hall
    · exact h.floods w k hold d hd
    · exact hall d hd

theorem info_sent (h : Inv D s) {dest : ℕ} (hdest : D.Slave dest)
    (hcall : call D D.masterId (s.node D.masterId) = .send (.peer dest) m)
    (hs : step D s (.sent D.masterId) =
      some ((s.setNode D.masterId (onSent D D.masterId (s.node D.masterId))).put
        (some (dest, .peer D.masterId)) m)) :
    Inv D ((s.setNode D.masterId (onSent D D.masterId (s.node D.masterId))).put
      (some (dest, .peer D.masterId)) m) := by
  refine h.of_sent hs hcall (Net.put_node _ _ _) (fun d hd ↦ ?_) (fun d v hd hv ↦ ?_)
    (fun v m' hm' ↦ .inl ?_) fun w k hne ↦ .inl ?_
  · have hsent := (h.row d hd).master_sent hcall (h.role _)
    have hne := slave_ne_master hd
    simp only [Net.put_node, Net.put_some_chan, Net.setNode_chan, and_true, Net.setNode_node,
      Function.update_self, Function.update_of_ne hne]
    by_cases hdd : d = dest
    · subst hdd
      simpa using hsent
    · simpa [hdd, Ne.symm hdd] using hsent
  · simp [Net.put_some_chan, hv, h.peers d v hd hv]
  · simpa [Net.put_some_chan, Ne.symm (slave_ne_master hdest)] using hm'
  · simpa [Net.put_some_chan] using hne

theorem reply_sent (h : Inv D s) (hu : D.Slave u) {table : RoutingTable} {maxNodeId : ℕ}
    (hold : s.node u = .replying (.peer D.masterId) table maxNodeId)
    (hcall : call D u (s.node u) = .send (.peer D.masterId) (reply u))
    (hs : step D s (.sent u) = some ((s.setNode u (onSent D u (s.node u))).put
      (some (D.masterId, .peer u)) (reply u))) :
    Inv D ((s.setNode u (onSent D u (s.node u))).put (some (D.masterId, .peer u)) (reply u)) := by
  have hne := slave_ne_master hu
  refine h.of_sent hs hcall (Net.put_node _ _ _) (fun d hd ↦ ?_) (fun d v hd hv ↦ ?_)
    (fun v m' hm' ↦ ?_) fun w k hne ↦ .inl ?_
  · have hrow := h.row_setNode hd (fun heq ↦ absurd heq hne) (n := onSent D u (s.node u)) (by
      rintro rfl
      exact (h.row u hd).slave_sent)
    simpa [Net.put_some_chan, slave_ne_master hd] using hrow
  · simp [Net.put_some_chan, slave_ne_master hd, h.peers d v hd hv]
  · simp only [Net.put_some_chan, true_and, Net.setNode_chan] at hm'
    split at hm'
    · rename_i hv
      cases hv
      rcases List.mem_append.mp hm' with hm' | hm'
      · exact .inl hm'
      · refine .inr ⟨List.mem_singleton.mp hm', hu, ?_⟩
        simp [hold, onSent, Node.Replied]
    · exact .inl hm'
  · simpa [Net.put_some_chan] using hne

theorem flood_sent (h : Inv D s) (hs : step D s (.sent u) = some s') {k : ℕ}
    (hcall : call D u (s.node u) = .send (.link k) m) (hall : AllReplied D s)
    (heq : s' = (s.setNode u (onSent D u (s.node u))).put (wire D u (.link k)) m) :
    Inv D s' := by
  have hnode : s'.node = (s.setNode u (onSent D u (s.node u))).node := by
    rw [heq, Net.put_node]
  have hpeer : ∀ w v, s'.chan w (.peer v) = s.chan w (.peer v) := by
    intro w v
    cases hlink : D.links u k with
    | none => simp [heq, wire, hlink]
    | some p => simp [heq, wire, hlink, Net.put_some_chan]
  refine h.of_sent hs hcall hnode (fun d hd ↦ ?_) (fun d v hd hv ↦ ?_)
    (fun v m' hm' ↦ .inl (hpeer _ v ▸ hm')) fun _ _ _ ↦ .inr hall
  · rw [hpeer, hnode]
    refine h.row_setNode hd ?_ ?_
    · rintro rfl
      simpa using (h.row d hd).master_sent hcall (h.role _)
    · rintro rfl
      exact (h.row u hd).slave_sent
  · rw [hpeer]
    exact h.peers d v hd hv

theorem sent (h : Inv D s) (hs : step D s (.sent u) = some s') : Inv D s' := by
  obtain ⟨i, m, hcall, heq⟩ := next_sent_iff.mp hs
  change call D u (s.node u) = .send i m at hcall
  rcases send_cases (h.role u) hcall with ⟨rfl, -, dest, hdest, rfl⟩ |
    ⟨hu, table, maxNodeId, hold, rfl⟩ | ⟨f, k, hold, rfl, hpos⟩
  · subst heq
    exact h.info_sent hdest hcall hs
  · obtain rfl : i = .peer D.masterId := by
      obtain ⟨_, _, -, -, hholds⟩ := h.row u hu
      rw [hold] at hholds
      exact hholds.1
    subst heq
    exact h.reply_sent hu hold hcall hs
  · exact h.flood_sent hs hcall (h.wrote u f hold hpos) heq

theorem reply_counted (h : Inv D s) (hs : step D s e = some s') {r : ℕ → Bool} {num d : ℕ}
    (hold : s.node D.masterId = .waitReceived r num) (hd : D.Slave d) (hr : (s.node d).Replied)
    (hnode : s'.node = (s.setNode D.masterId
      (onRecv nic D.masterId (.peer d) (reply d) (s.node D.masterId))).node)
    (hchan : ∀ w i, s'.chan w i <:+ s.chan w i)
    (hrow : ∀ d, D.Slave d → s'.chan d (.peer D.masterId) = s.chan d (.peer D.masterId)) :
    Inv D s' := by
  have hrep := replied_step hs
  have hmem : ∀ {w i}, s'.chan w i ≠ [] → s.chan w i ≠ [] := fun hne hnil ↦
    hne (List.suffix_nil.mp (hnil ▸ hchan _ _))
  refine ⟨role_step h.role hs, fun c hc ↦ ?_, fun c v hc hv ↦ ?_, fun v m hm ↦ ?_,
    fun r' num' hn ↦ ?_, fun w f hn hpos ↦ ?_, fun w i hne c hc ↦ ?_⟩
  · rw [hrow c hc, hnode]
    refine h.row_setNode hc (fun _ ↦ ?_) fun heq ↦ absurd heq.symm (slave_ne_master hc)
    exact (h.row c hc).master_recv (h.role _)
  · by_contra hne
    exact hmem hne (h.peers c v hc hv)
  · obtain ⟨hm, hv, hr⟩ := h.replies v m ((hchan _ _).subset hm)
    exact ⟨hm, hv, hrep v hr⟩
  · obtain ⟨hrs, hnum⟩ := h.counted r num hold
    rw [hnode, Net.setNode_node, Function.update_self, hold] at hn
    by_cases hnew : r d = false
    · simp only [onRecv, reply, if_true, hnew] at hn
      cases hn
      refine ⟨fun k hk ↦ ?_, ?_⟩
      · by_cases hkd : k = d
        · subst hkd
          exact ⟨hd, hrep k hr⟩
        · rw [Function.update_of_ne hkd] at hk
          exact ⟨(hrs k hk).1, hrep k (hrs k hk).2⟩
      · have hins : (Finset.Ioo D.masterId D.lastNode).filter
              (fun k ↦ Function.update r d true k = true) =
            insert d ((Finset.Ioo D.masterId D.lastNode).filter fun k ↦ r k = true) := by
          ext k
          by_cases hkd : k = d
          · subst hkd
            simpa using (show D.masterId < k ∧ k < D.lastNode from hd)
          · simp [hkd]
        rw [hins, Finset.card_insert_of_notMem (by simp [hnew]), hnum]
    · simp only [onRecv, reply, if_true, hnew] at hn
      cases hn
      exact ⟨fun k hk ↦ ⟨(hrs k hk).1, hrep k (hrs k hk).2⟩, hnum⟩
  · refine h.wrote_setNode hrep hnode ?_ hn hpos
    intro f hf
    rw [hold] at hf
    by_cases hnew : r d = false <;> simp [onRecv, reply, hnew] at hf
  · exact hrep c (h.floods w i (hmem hne) c hc)

theorem row_received (h : Inv D s) (hu : D.Slave u) {table : RoutingTable} {maxId : ℕ}
    (hold : s.node u = .receiving table maxId) {q : List Payload}
    (hchan : s.chan u (.peer D.masterId) = m :: q)
    (hs : step D s (.received u (.peer D.masterId) m) =
      some ((s.setNode u (onRecv nic u (.peer D.masterId) m (s.node u))).setChan u
        (.peer D.masterId) q)) :
    Inv D ((s.setNode u (onRecv nic u (.peer D.masterId) m (s.node u))).setChan u
      (.peer D.masterId) q) := by
  have hrep := replied_step hs
  have hne := slave_ne_master hu
  refine ⟨role_step h.role hs, fun d hd ↦ ?_, fun d v hd hv ↦ ?_, fun v m' hm ↦ ?_,
    fun r num hn ↦ ?_, fun w f hn hpos ↦ ?_, fun w i hne d hd ↦ ?_⟩
  · by_cases hdu : d = u
    · subst hdu
      have hrow := h.row d hd
      rw [hchan, hold] at hrow
      simpa [Net.setChan_chan, Ne.symm hne, hold] using hrow.slave_recv_row hd
    · have hrow := h.row d hd
      simpa [Net.setChan_chan, Ne.symm hne, hdu] using hrow
  · simp [Net.setChan_chan, hv, h.peers d v hd hv]
  · rw [Net.setChan_chan, if_neg (fun hm ↦ hne hm.1.symm)] at hm
    obtain ⟨hm, hv, hr⟩ := h.replies v m' hm
    exact ⟨hm, hv, hrep v hr⟩
  · exact h.counted_of hrep (.inl (by simp [Ne.symm hne])) hn
  · refine h.wrote_setNode hrep (Net.setChan_node _ _ _ _) ?_ hn hpos
    intro f hf
    rw [hold] at hf
    simp only [onRecv] at hf
    split at hf <;> cases hf
  · refine hrep d (h.floods w i ?_ d hd)
    simpa [Net.setChan_chan] using hne

theorem flood_received (h : Inv D s) {f : SetRouting.Node} (hold : s.node u = .set f) {k : ℕ}
    {q : List Payload} (hchan : s.chan u (.link k) = m :: q)
    (hs : step D s (.received u (.link k) m) =
      some ((s.setNode u (onRecv nic u (.link k) m (s.node u))).setChan u (.link k) q)) :
    Inv D ((s.setNode u (onRecv nic u (.link k) m (s.node u))).setChan u (.link k) q) := by
  have hrep := replied_step hs
  have hall := h.floods u k (by simp [hchan])
  have hpeer : ∀ w v, ((s.setNode u (onRecv nic u (.link k) m (s.node u))).setChan u
      (.link k) q).chan w (.peer v) = s.chan w (.peer v) := fun w v ↦ by simp [Net.setChan_chan]
  refine ⟨role_step h.role hs, fun d hd ↦ ?_, fun d v hd hv ↦ ?_, fun v m' hm ↦ ?_,
    fun r num hn ↦ ?_, fun w f hn hpos d hd ↦ hrep d (hall d hd),
    fun w i hne d hd ↦ hrep d (hall d hd)⟩
  · rw [hpeer]
    refine h.row_setNode hd ?_ ?_
    · rintro rfl
      exact (h.row d hd).master_recv (h.role _)
    · rintro rfl
      have hrow := h.row u hd
      rw [hold] at hrow ⊢
      exact hrow.slave_recv_flood _
  · rw [hpeer]
    exact h.peers d v hd hv
  · rw [hpeer] at hm
    obtain ⟨hm, hv, hr⟩ := h.replies v m' hm
    exact ⟨hm, hv, hrep v hr⟩
  · refine h.counted_of hrep ?_ hn
    by_cases hu : u = D.masterId
    · subst hu
      exact .inr fun r num ↦ by simp [hold, onRecv]
    · exact .inl (by simp [Ne.symm hu])

theorem received (h : Inv D s) (hs : step D s (.received u i m) = some s') : Inv D s' := by
  obtain ⟨ports, q, hcall, hport, hchan, rfl⟩ := next_received_iff.mp hs
  rcases recv_cases hcall with ⟨rfl, ⟨r, num, hold⟩ | ⟨table, maxId, hold⟩⟩ | ⟨f, hold, hpeer⟩
  · obtain rfl : u = D.masterId := by
      have := h.role u
      rwa [hold] at this
    cases i with
    | link k => cases hport
    | peer v =>
        obtain ⟨rfl, hv, hr⟩ := h.replies v m (by simp [hchan])
        refine h.reply_counted hs hold hv hr rfl (fun w i ↦ ?_) fun d hd ↦ ?_
        · rw [Net.setChan_chan]
          split
          · rename_i hw
            rw [hw.1, hw.2, hchan]
            exact List.suffix_cons _ _
          · exact List.suffix_refl _
        · simp [Net.setChan_chan, slave_ne_master hd]
  · have hu : D.Slave u := by
      have := h.role u
      rwa [hold] at this
    cases i with
    | link k => cases hport
    | peer v =>
        obtain rfl : v = D.masterId := by
          by_contra hv
          rw [h.peers u v hu hv] at hchan
          cases hchan
        exact h.row_received hu hold hchan hs
  · cases i with
    | peer v =>
        rw [hpeer v] at hport
        cases hport
    | link k => exact h.flood_received hold hchan hs

/-- A copy of a reply reaches the master. -/
theorem stray (h : Inv D s) (hgen : Genuine D s (.stray u i m))
    (hs : step D s (.stray u i m) = some s') : Inv D s' := by
  obtain ⟨⟨ports, hcall, hport⟩, rfl⟩ := next_stray_iff.mp hs
  cases i with
  | link k => exact hgen.elim
  | peer d =>
      obtain ⟨rfl, hd, hr, rfl⟩ := hgen
      rcases recv_cases hcall with
        ⟨-, ⟨r, num, hold⟩ | ⟨table, maxId, hold⟩⟩ | ⟨f, hold, hpeer⟩
      · exact h.reply_counted hs hold hd hr rfl (fun _ _ ↦ List.suffix_refl _) fun _ _ ↦ rfl
      · have hrole := h.role D.masterId
        rw [hold] at hrole
        exact absurd hrole.1 (lt_irrefl _)
      · rw [hpeer d] at hport
        cases hport

theorem step (h : Inv D s) (hgen : Genuine D s e) (hs : step D s e = some s') : Inv D s' := by
  cases e with
  | internal u => exact h.internal hs
  | sent u => exact h.sent hs
  | sendError u => exact h.error hs (next_sendError_iff.mp hs).2
  | received u i m => exact h.received hs
  | recvError u => exact h.error hs (next_recvError_iff.mp hs).2
  | stray u i m => exact h.stray hgen hs

theorem exec (h : Exec (Delivery.step D) (init D) tr s) (hgen : Meets (Genuine D) tr) : Inv D s :=
  Exec.invariant inv_init (fun _ _ _ h hgen hs ↦ h.step hgen hs) h hgen

end Inv

/-- What a slave holds when it has read all the master has sent it. -/
def Complete (D : Job nic) (d : ℕ) : Node → Prop
  | .received table maxNodeId => D.Exact d table maxNodeId
  | .set f => f.mem.routingTable = Function.update (D.row d) d (1#8 <<< nic.routingLoopbackIf)
  | _ => False

/-- Whatever the interleaving, with failing calls and copied replies: a slave that has
returned from `axiom_receive_routing_tables` holds its row, and no board writes its final
table before every slave has received its own. -/
theorem delivery_exact (D : Job nic) (h : Exec (step D) (init D) tr s)
    (hgen : Meets (Genuine D) tr) :
    (∀ d table maxNodeId, D.Slave d → s.node d = .received table maxNodeId →
      (∀ k, table k = if k < D.lastNode then D.routingTables d k else 0) ∧
        IsGreatest {k | k = d ∨ (k < D.lastNode ∧ D.routingTables d k ≠ 0)} maxNodeId) ∧
      ∀ w f, s.node w = .set f → 0 < f.mem.writes →
        ∀ d, D.Slave d → Complete D d (s.node d) := by
  have hinv := Inv.exec h hgen
  refine ⟨fun d table maxNodeId hd hnode ↦ ?_, fun w f hnode hpos d hd ↦ ?_⟩
  · obtain ⟨_, _, -, -, hholds⟩ := hinv.row d hd
    rw [hnode] at hholds
    exact ⟨fun k ↦ congrFun hholds.1 k, hholds.2⟩
  · obtain ⟨_, _, -, -, hholds⟩ := hinv.row d hd
    rcases Node.replied_iff.mp (hinv.wrote w f hnode hpos d hd) with
      ⟨table, maxNodeId, hd⟩ | ⟨f, hd⟩
    · rw [hd] at hholds ⊢
      exact hholds
    · rw [hd] at hholds ⊢
      exact hholds

/-- Three boards in a row and the tables that route along it. -/
def rowJob : Job fourIfNic where
  masterId := 0
  lastNode := 3
  masterId_lt := by decide
  lastNode_le := by decide
  routingTables d k := if k < d then 1 else if d < k then 2 else 0
  links u i :=
    if i = 0 ∧ 0 < u ∧ u < 3 then some (u - 1, 1)
    else if i = 1 ∧ u < 2 then some (u + 1, 0) else none
  hardware _ _ := 0

/-- A delivery to the two slaves in which the first reply arrives twice, up to the
moment when the first slave has set its table. -/
def rowEvents : List (Event ℕ Port Payload) :=
  [.sent 0, .internal 0, .sent 0, .internal 0, .sent 0, .sent 0, .internal 0, .internal 0,
    .internal 0, .sent 0, .sent 0, .internal 0,
    .received 1 (.peer 0) ⟨.info, 0, 1⟩, .received 1 (.peer 0) ⟨.info, 2, 2⟩,
    .received 2 (.peer 0) ⟨.info, 0, 1⟩, .received 1 (.peer 0) ⟨.endInfo, 0, 0⟩, .sent 1,
    .received 0 (.peer 1) (reply 1), .stray 0 (.peer 1) (reply 1), .internal 1,
    .received 2 (.peer 0) ⟨.info, 1, 1⟩, .received 2 (.peer 0) ⟨.endInfo, 0, 0⟩, .sent 2,
    .received 0 (.peer 2) (reply 2), .internal 0, .internal 0, .sent 0,
    .received 1 (.link 0) ⟨.setRouting, 0, 0⟩]

theorem delivery_exact_row :
    ∃ tr s, Exec (step rowJob) (init rowJob) tr s ∧ Meets (Genuine rowJob) tr ∧
      (∃ f, s.node 1 = .set f ∧ 0 < f.mem.writes) ∧
      Complete rowJob 1 (s.node 1) ∧ Complete rowJob 2 (s.node 2) := by
  have hrun : ∃ tr s, Exec (step rowJob) (init rowJob) tr s ∧ Meets (Genuine rowJob) tr ∧
      (match s.node 1 with
        | .set f => decide (0 < f.mem.writes)
        | _ => false) = true :=
    Exec.exists_of_run rowEvents (by decide +kernel)
  obtain ⟨tr, s, hexec, hgen, hs⟩ := hrun
  cases hnode : s.node 1 with
  | set f =>
      rw [hnode] at hs
      have hpos : 0 < f.mem.writes := of_decide_eq_true hs
      have hall := (delivery_exact rowJob hexec hgen).2 1 f hnode hpos
      exact ⟨tr, s, hexec, hgen, ⟨f, hnode, hpos⟩, hall 1 (by decide), hall 2 (by decide)⟩
  | _ =>
      rw [hnode] at hs
      cases hs

end AxiomApps.Delivery
