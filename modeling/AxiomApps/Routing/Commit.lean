import AxiomApps.Routing.Delivery

/-!
# The routing phase completes

Without faults no board waits in vain during the delivery, and the flood inside it is the
flood of `axiom_set_routing_table` on the network of the boards: a step of the delivery is a
step of that flood or does not touch it. So every run is finite, and it ends with every board
having returned and its row in its registers.
-/

namespace AxiomApps.Delivery

open FifoNet EventSystem
open SetRouting (RtCmd)

variable {nic : NicLimits} {D : Job nic} {s s' : State} {e : Event ℕ Port Payload}
variable {tr : List (State × Event ℕ Port Payload)}

theorem genuine_of_faultless (he : e.Faultless) : Genuine D s e := by
  cases e with
  | stray u i m => exact he.elim
  | _ => trivial

/-! ## Nobody waits in vain -/

def Node.IsReceiving : Node → Prop
  | .receiving _ _ => True
  | _ => False

/-- The master has yet to count the reply of slave `d`. -/
def Unheard (d : ℕ) : Node → Prop
  | .sendInfo _ _ => True
  | .sendEnd _ => True
  | .waitReceived r _ => r d = false
  | _ => False

def endInfo : Payload := ⟨.endInfo, 0, 0⟩

/-- No call has failed; a slave that reads its row has the end of it still to come, and the
reply of a slave waits for the master until it is counted. -/
structure Live (D : Job nic) (s : State) : Prop where
  inv : Inv D s
  ok : ∀ w, s.node w ≠ .failed
  awaits : ∀ d, D.Slave d → (s.node d).IsReceiving →
    (s.chan d (.peer D.masterId) ++ D.pending d (s.node D.masterId)).getLast? = some endInfo
  answered : ∀ d, D.Slave d → (s.node d).Replied → Unheard d (s.node D.masterId) →
    reply d ∈ s.chan D.masterId (.peer d)

theorem Node.isReceiving_iff {n : Node} :
    n.IsReceiving ↔ ∃ table maxId, n = .receiving table maxId := by
  cases n <;> simp [IsReceiving]

theorem live_init : Live D (init D) where
  inv := inv_init
  ok w := by
    simp only [init]
    split
    · simp
    · split <;> simp
  awaits d hd _ := by
    have hge : ¬ d < D.masterId + 1 := by
      have := hd.1
      omega
    simp only [init, if_true, Job.pending, hge, if_false, ite_self, List.nil_append]
    exact List.getLast?_concat
  answered d hd hr := by
    simp [init, hd.1.ne', hd, Node.Replied] at hr

/-- A slave that reads its row has done so all along. -/
theorem isReceiving_of_step (hs : step D s e = some s') (w : ℕ) (h : (s'.node w).IsReceiving) :
    (s.node w).IsReceiving := by
  refine next_local (P := fun w n ↦ n.IsReceiving → (s.node w).IsReceiving) ?_ ?_ ?_ ?_ ?_
    (fun _ hr ↦ hr) hs w h
  · intro u n hn hr
    cases n with
    | sendInfo dest k =>
        simp only [program, onInternal] at hr
        split at hr
        · split at hr <;> exact hr.elim
        · exact hr.elim
    | receiving table maxId => exact hn trivial
    | _ => exact hr.elim
  · intro u n hn hr
    cases n with
    | receiving table maxId => exact hn trivial
    | _ => exact hr.elim
  · intro u n hn hr
    cases n <;> exact hr.elim
  · intro u n i m hn hr
    cases n with
    | receiving table maxId => exact hn trivial
    | waitReceived r num =>
        simp only [program, onRecv] at hr
        split at hr
        · split at hr <;> exact hr.elim
        · exact hr.elim
    | _ => exact hr.elim
  · intro u n hn hr
    cases n <;> exact hr.elim

namespace Live

variable {u d : ℕ} {i : Port} {m : Payload}

theorem onRecv_ne_failed {n : Node} (hn : n ≠ .failed) (hm : (∃ r num, n = .waitReceived r num) →
    m.command = .rtReply) : onRecv nic u i m n ≠ .failed := by
  cases n with
  | waitReceived r num =>
      simp only [onRecv, hm ⟨r, num, rfl⟩, if_true]
      split <;> simp
  | receiving table maxId =>
      simp only [onRecv]
      split <;> simp
  | set f => simp [onRecv]
  | _ => exact hn

theorem ok_step (h : Live D s) (he : e.Faultless) (hs : step D s e = some s') (w : ℕ) :
    s'.node w ≠ .failed := by
  refine next_handled (P := fun _ n ↦ n ≠ .failed) h.ok ?_ hs w
  cases e with
  | internal u =>
      have hu := h.ok u
      change onInternal D u (s.node u) ≠ .failed
      cases hn : s.node u with
      | sendInfo dest k =>
          simp only [onInternal]
          split
          · split <;> simp
          · simp
      | failed => exact absurd hn hu
      | _ => simp [onInternal]
  | sent u =>
      have hu := h.ok u
      change onSent D u (s.node u) ≠ .failed
      cases hn : s.node u with
      | failed => exact absurd hn hu
      | _ => simp [onSent]
  | received u i m =>
      refine onRecv_ne_failed (h.ok u) ?_
      rintro ⟨r, num, hn⟩
      obtain ⟨ports, q, hcall, hport, hchan, -⟩ := next_received_iff.mp hs
      change s.node u = .waitReceived r num at hn
      obtain rfl : u = D.masterId := by
        have := h.inv.role u
        rwa [hn] at this
      cases i with
      | link k =>
          change call D D.masterId (s.node D.masterId) = _ at hcall
          simp only [hn, call] at hcall
          split at hcall
          · cases hcall
            cases hport
          · cases hcall
      | peer v =>
          obtain ⟨rfl, -⟩ := h.inv.replies v m (by simp [hchan])
          rfl
  | sendError u => exact he.elim
  | recvError u => exact he.elim
  | stray u i m => exact he.elim

/-- Where the master is when it sends to a slave. -/
theorem master_loop {u : ℕ} {n : Node} (hcall : call D u n = .send i m) (hset : ∀ f, n ≠ .set f)
    (hrole : Role D D.masterId n) :
    (∃ dest k, n = .sendInfo dest k) ∨ ∃ dest, n = .sendEnd dest := by
  cases n with
  | sendInfo dest k => exact .inl ⟨dest, k, rfl⟩
  | sendEnd dest => exact .inr ⟨dest, rfl⟩
  | waitReceived r num =>
      simp only [call] at hcall
      split at hcall <;> cases hcall
  | replying src table maxNodeId => exact absurd hrole.1 (lt_irrefl _)
  | set f => exact absurd rfl (hset f)
  | _ => cases hcall

/-- A port of a slave's that leads to the master is fed by the master only. -/
theorem put_chan_of_ne {u v : ℕ} (hu : u ≠ v) (i : Port) (m : Payload) (d : ℕ) :
    (s.put (wire D u i) m).chan d (.peer v) = s.chan d (.peer v) := by
  cases i with
  | peer w => simp [wire, Net.put_some_chan, Ne.symm hu]
  | link k =>
      cases hlink : D.links u k with
      | none => simp [wire, hlink]
      | some p => simp [wire, hlink, Net.put_some_chan]

/-- Whatever the master reads, it has nothing more to send. -/
theorem pending_onRecv {n : Node} {ports : Port → Bool} (hcall : call D u n = .recv ports) :
    D.pending d n = [] ∧ D.pending d (onRecv nic u i m n) = [] := by
  rcases recv_cases hcall with ⟨-, ⟨r, num, rfl⟩ | ⟨table, maxId, rfl⟩⟩ | ⟨f, rfl, -⟩
  · refine ⟨rfl, ?_⟩
    simp only [onRecv]
    split
    · split <;> rfl
    · rfl
  · refine ⟨rfl, ?_⟩
    simp only [onRecv]
    split <;> rfl
  · exact ⟨rfl, rfl⟩

/-- What waits for slave `d` and what the master has yet to send it: a step leaves it alone
but for the message the slave reads. -/
theorem coming_step (h : Live D s) (hd : D.Slave d) (he : e.Faultless)
    (hs : step D s e = some s') (hrec : (s.node d).IsReceiving) :
    s'.chan d (.peer D.masterId) ++ D.pending d (s'.node D.masterId) =
        s.chan d (.peer D.masterId) ++ D.pending d (s.node D.masterId) ∨
      ∃ m, s'.node d = onRecv nic d (.peer D.masterId) m (s.node d) ∧
        s.chan d (.peer D.masterId) ++ D.pending d (s.node D.masterId) =
          m :: (s'.chan d (.peer D.masterId) ++ D.pending d (s'.node D.masterId)) := by
  have hne := Inv.slave_ne_master hd
  cases e with
  | internal u =>
      obtain ⟨hcall, rfl⟩ := next_internal_iff.mp hs
      refine .inl (congrArg (s.chan d (.peer D.masterId) ++ ·) ?_)
      by_cases hu : u = D.masterId
      · subst hu
        simpa [program] using D.pending_onInternal hd D.masterId hcall
      · simp [Ne.symm hu]
  | sent u =>
      obtain ⟨i, m, hcall, rfl⟩ := next_sent_iff.mp hs
      change call D u (s.node u) = .send i m at hcall
      left
      by_cases hu : u = D.masterId
      · subst hu
        by_cases hset : ∃ f, s.node D.masterId = .set f
        · -- the flood uses the other ports
          obtain ⟨f, hf⟩ := hset
          obtain ⟨k, rfl⟩ : ∃ k, i = .link k := by
            rcases send_cases (h.inv.role _) hcall with ⟨-, hset, -⟩ | ⟨hu, -⟩ | ⟨_, k, -, hk, -⟩
            · exact absurd hf (hset f)
            · exact absurd rfl (Inv.slave_ne_master hu)
            · exact ⟨k, hk⟩
          cases hlink : D.links D.masterId k with
          | none => simp [wire, hlink, program, hf, onSent, Job.pending]
          | some p => simp [wire, hlink, program, hf, onSent, Job.pending, Net.put_some_chan]
        · push Not at hset
          obtain ⟨dest, rfl, -, hnext, hother⟩ :=
            D.pending_onSent hcall (master_loop hcall hset (h.inv.role _))
          by_cases hdest : d = dest
          · subst hdest
            simp [wire, Net.put_some_chan, program, hnext]
          · simp [wire, Net.put_some_chan, program, hother d hdest, hdest]
      · rw [put_chan_of_ne hu, Net.put_node]
        simp [Ne.symm hu]
  | received u i m =>
      obtain ⟨ports, q, hcall, hport, hchan, rfl⟩ := next_received_iff.mp hs
      change call D u (s.node u) = .recv ports at hcall
      by_cases hu : u = d
      · subst hu
        obtain ⟨table, maxId, hnode⟩ := Node.isReceiving_iff.mp hrec
        rw [hnode] at hcall
        cases hcall
        cases i with
        | link k => cases hport
        | peer v =>
            obtain rfl : v = D.masterId := by
              by_contra hv
              rw [h.inv.peers u v hd hv] at hchan
              cases hchan
            refine .inr ⟨m, by simp [program], ?_⟩
            simp [Net.setChan_chan, hchan, Ne.symm hne]
      · left
        rw [Net.setChan_chan, if_neg (fun hc ↦ hu hc.1.symm)]
        by_cases hum : u = D.masterId
        · subst hum
          obtain ⟨hold, hnew⟩ := pending_onRecv (d := d) (i := i) (m := m) hcall
          simp [program, hold, hnew]
        · simp [Ne.symm hum]
  | sendError u => exact he.elim
  | recvError u => exact he.elim
  | stray u i m => exact he.elim

theorem awaits_step (h : Live D s) (he : e.Faultless) (hs : step D s e = some s')
    (hd : D.Slave d) (hrec : (s'.node d).IsReceiving) :
    (s'.chan d (.peer D.masterId) ++ D.pending d (s'.node D.masterId)).getLast? =
      some endInfo := by
  have hold := isReceiving_of_step hs d hrec
  have hlast := h.awaits d hd hold
  rcases h.coming_step hd he hs hold with hsame | ⟨m, hnode, hcons⟩
  · rw [hsame]
    exact hlast
  · rw [hcons] at hlast
    obtain ⟨table, maxId, hn⟩ := Node.isReceiving_iff.mp hold
    generalize s'.chan d (.peer D.masterId) ++ D.pending d (s'.node D.masterId) = l at hlast ⊢
    cases l with
    | nil =>
        -- having read the last message it would not be reading any more
        obtain rfl : m = endInfo := by simpa using hlast
        rw [hnode, hn] at hrec
        exact hrec.elim
    | cons m' l => simpa using hlast

theorem unheard_of_step (hs : step D s e = some s') (h : Unheard d (s'.node D.masterId)) :
    Unheard d (s.node D.masterId) := by
  refine next_local (P := fun w n ↦ Unheard d n → Unheard d (s.node w)) ?_ ?_ ?_ ?_ ?_
    (fun _ hu ↦ hu) hs _ h
  · intro u n hn hu
    cases n with
    | sendInfo dest k => exact hn trivial
    | sendEnd dest => exact hn trivial
    | _ => exact hu.elim
  · intro u n hn hu
    cases n with
    | sendInfo dest k => exact hn trivial
    | sendEnd dest => exact hn trivial
    | waitReceived r num => exact hn hu
    | _ => exact hu.elim
  · intro u n hn hu
    cases n <;> exact hu.elim
  · intro u n i m hn hu
    cases n with
    | sendInfo dest k => exact hn trivial
    | sendEnd dest => exact hn trivial
    | waitReceived r num =>
        simp only [program, onRecv] at hu
        split at hu
        · split at hu
          · refine hn ?_
            simp only [Unheard, Function.update_apply] at hu ⊢
            split at hu
            · cases hu
            · exact hu
          · exact hn hu
        · exact hu.elim
    | receiving table maxId =>
        simp only [program, onRecv] at hu
        split at hu <;> exact hu.elim
    | _ => exact hu.elim
  · intro u n hn hu
    cases n <;> exact hu.elim

/-- A slave has replied once its reply is sent. -/
theorem replied_of_step (h : Live D s) (hd : D.Slave d) (he : e.Faultless)
    (hs : step D s e = some s') (hr : (s'.node d).Replied) : (s.node d).Replied ∨
      ∃ src table maxNodeId, e = .sent d ∧ s.node d = .replying src table maxNodeId := by
  by_cases hat : d = e.at
  · have hrole := h.inv.role d
    rw [hat, next_node_at hs, ← hat] at hr
    cases hn : s.node d with
    | set f => exact .inl trivial
    | received table maxNodeId => exact .inl trivial
    | replying src table maxNodeId =>
        cases e with
        | sent u =>
            obtain rfl : d = u := hat
            exact .inr ⟨src, table, maxNodeId, rfl, rfl⟩
        | internal u => simp [hn, Program.handle, program, onInternal, Node.Replied] at hr
        | received u i m => simp [hn, Program.handle, program, onRecv, Node.Replied] at hr
        | sendError u => exact he.elim
        | recvError u => exact he.elim
        | stray u i m => exact he.elim
    | receiving table maxId =>
        rw [hn] at hr
        cases e with
        | received u i m =>
            simp only [Program.handle, program, onRecv] at hr
            split at hr <;> exact hr.elim
        | internal u => exact hr.elim
        | sent u => exact hr.elim
        | sendError u => exact he.elim
        | recvError u => exact he.elim
        | stray u i m => exact he.elim
    | failed => exact absurd hn (h.ok d)
    | sendInfo dest k =>
        rw [hn] at hrole
        exact absurd hrole.1 (Inv.slave_ne_master hd)
    | sendEnd dest =>
        rw [hn] at hrole
        exact absurd hrole.1 (Inv.slave_ne_master hd)
    | waitReceived r num =>
        rw [hn] at hrole
        exact absurd hrole (Inv.slave_ne_master hd)
    | absent =>
        rw [hn] at hrole
        exact absurd hd hrole.2
  · rw [next_node_of_ne hs hat] at hr
    exact .inl hr

theorem answered_step (h : Live D s) (he : e.Faultless) (hs : step D s e = some s')
    (hd : D.Slave d) (hr : (s'.node d).Replied) (hu : Unheard d (s'.node D.masterId)) :
    reply d ∈ s'.chan D.masterId (.peer d) := by
  rcases h.replied_of_step hd he hs hr with hold | ⟨src, table, maxNodeId, rfl, hn⟩
  · refine next_mem_chan_of_ne hs (h.answered d hd hold (unheard_of_step hs hu)) ?_
    -- the master counts the reply when it takes it
    rintro rfl
    obtain ⟨ports, q, hcall, hport, -, rfl⟩ := next_received_iff.mp hs
    rcases recv_cases hcall with ⟨-, ⟨r, num, hn⟩ | ⟨table, maxId, hn⟩⟩ | ⟨f, hn, hpeer⟩
    · by_cases hrd : r d = false
      · simp [program, hn, onRecv, reply, hrd, Unheard] at hu
      · simp [program, hn, onRecv, reply, hrd, Unheard] at hu
    · have hrole := h.inv.role D.masterId
      rw [hn] at hrole
      exact absurd hrole.1 (lt_irrefl _)
    · rw [hpeer d] at hport
      cases hport
  · obtain ⟨i, m, hcall, rfl⟩ := next_sent_iff.mp hs
    change call D d (s.node d) = .send i m at hcall
    rw [hn] at hcall
    cases hcall
    obtain rfl : src = .peer D.masterId := by
      obtain ⟨_, _, -, -, hholds⟩ := h.inv.row d hd
      rw [hn] at hholds
      exact hholds.1
    simp [wire, Net.put_some_chan, reply]

theorem step (h : Live D s) (he : e.Faultless) (hs : step D s e = some s') : Live D s' where
  inv := h.inv.step (genuine_of_faultless he) hs
  ok := h.ok_step he hs
  awaits _ hd hrec := h.awaits_step he hs hd hrec
  answered _ hd hr hu := h.answered_step he hs hd hr hu

end Live

/-! ## The flood inside the delivery -/

namespace Job

variable (D)

/-- The boards of the job, by their ids. -/
abbrev Board : Type := Finset.Ico D.masterId D.lastNode

def master : D.Board := ⟨D.masterId, Finset.left_mem_Ico.mpr D.masterId_lt⟩

/-- The cables of the job are those of the network. -/
def WiredAs (net : Network nic D.Board) : Prop :=
  ∀ (u : D.Board) (i : ℕ), D.links u i = (net.wire u i).map fun p ↦ (p.1.val, p.2)

/-- The table a board is to set. -/
def table (w : ℕ) : RoutingTable :=
  if w = D.masterId then D.routingTables D.masterId else D.row w

/-- All boards enter `axiom_set_routing_table`. -/
def floodInit : SetRouting.State D.Board :=
  SetRouting.init nic D.master Subtype.val fun w ↦ ⟨D.table w, D.hardware w, 0, 0⟩

/-- Where a board is in the flood; it has not begun before it enters it. -/
def floodNode (w : D.Board) : Node → SetRouting.Node
  | .set f => f
  | _ => D.floodInit.node w

def floodOf (s : State) : SetRouting.State D.Board where
  node w := D.floodNode w (s.node w)
  chan w i := (s.chan w (.link i)).map Payload.command

variable {D}

theorem eq_master_iff {w : D.Board} : w = D.master ↔ w.val = D.masterId :=
  Subtype.ext_iff

theorem board_iff {w : ℕ} :
    w ∈ Finset.Ico D.masterId D.lastNode ↔ w = D.masterId ∨ D.Slave w := by
  have hlt := D.masterId_lt
  rw [Finset.mem_Ico, Slave]
  omega

theorem floodOf_init : D.floodOf (init D) = D.floodInit := by
  have hnode : ∀ w : D.Board, D.floodNode w ((init D).node w) = D.floodInit.node w := by
    intro w
    simp only [init]
    split
    · rfl
    · split <;> rfl
  simp only [floodOf, hnode]
  rfl

theorem floodOf_setNode (w : D.Board) (n : Node) :
    D.floodOf (s.setNode w n) = (D.floodOf s).setNode w (D.floodNode w n) := by
  simp only [floodOf, Net.setNode, Net.mk.injEq, and_true]
  funext v
  by_cases hv : v = w
  · subst hv
    simp
  · have hv' : v.val ≠ w.val := fun h ↦ hv (Subtype.ext h)
    simp [hv, hv']

/-- A board that moves outside the flood. -/
theorem floodOf_setNode_same (w : D.Board) {n : Node}
    (h : D.floodNode w n = D.floodNode w (s.node w)) : D.floodOf (s.setNode w n) = D.floodOf s := by
  rw [floodOf_setNode, h]
  exact congrArg (Net.mk · _) (Function.update_eq_self w _)

theorem floodOf_put_peer (u v : ℕ) (m : Payload) :
    D.floodOf (s.put (wire D u (.peer v)) m) = D.floodOf s := by
  simp [floodOf, wire, Net.put_some_chan]

theorem floodOf_put_link {net : Network nic D.Board} (hnet : D.WiredAs net) (u : D.Board) (k : ℕ)
    (m : Payload) :
    D.floodOf (s.put (wire D u (.link k)) m) = (D.floodOf s).put (net.wire u k) m.command := by
  cases hwire : net.wire u k with
  | none => simp [wire, hnet u k, hwire]
  | some p =>
      obtain ⟨v, j⟩ := p
      simp only [wire, hnet u k, hwire, Option.map_some, floodOf, Net.put, Net.setChan,
        Net.mk.injEq, true_and]
      funext w i
      by_cases hw : w = v ∧ i = j
      · obtain ⟨rfl, rfl⟩ := hw
        simp
      · have hw' : ¬ (w.val = v.val ∧ Port.link i = .link j) := by
          rintro ⟨h, ⟨⟩⟩
          exact hw ⟨Subtype.ext h, rfl⟩
        simp only [hw, hw', if_false]

theorem floodOf_setChan_peer (u v : ℕ) (q : List Payload) :
    D.floodOf (s.setChan u (.peer v) q) = D.floodOf s := by
  simp [floodOf, Net.setChan]

theorem floodOf_setChan_link (u : D.Board) (k : ℕ) (q : List Payload) :
    D.floodOf (s.setChan u (.link k) q) =
      (D.floodOf s).setChan u k (q.map Payload.command) := by
  simp only [floodOf, Net.setChan, Net.mk.injEq, true_and]
  funext w i
  by_cases hw : w = u ∧ i = k
  · obtain ⟨rfl, rfl⟩ := hw
    simp
  · have hw' : ¬ (w.val = u.val ∧ Port.link i = .link k) := by
      rintro ⟨h, ⟨⟩⟩
      exact hw ⟨Subtype.ext h, rfl⟩
    simp only [hw, hw', if_false]

end Job

section Simulation

variable {net : Network nic D.Board}

theorem flood_eq (hnet : D.WiredAs net) (u : D.Board) :
    flood D u = SetRouting.call nic (SetRouting.connected net u) := by
  have hconn : (fun i ↦ (D.links u i).isSome) = SetRouting.connected net u := by
    funext i
    rw [hnet u i, Option.isSome_map]
    rfl
  rw [flood, hconn]

theorem liftCall_eq_internal {c : Call ℕ RtCmd} (h : liftCall c = .internal) : c = .internal := by
  cases c <;> simp [liftCall] at h ⊢

theorem liftCall_eq_send {c : Call ℕ RtCmd} {i : Port} {m : Payload} (h : liftCall c = .send i m) :
    ∃ k cmd, c = .send k cmd ∧ i = .link k ∧ m = ⟨cmd, 0, 0⟩ := by
  cases c with
  | send k cmd =>
      obtain ⟨rfl, rfl⟩ : Port.link k = i ∧ (⟨cmd, 0, 0⟩ : Payload) = m := by
        simpa [liftCall] using h
      exact ⟨k, cmd, rfl, rfl, rfl⟩
  | _ => simp [liftCall] at h

theorem liftCall_eq_recv {c : Call ℕ RtCmd} {ports : Port → Bool} (h : liftCall c = .recv ports)
    {k : ℕ} (hk : ports (.link k) = true) : ∃ p, c = .recv p ∧ p k = true := by
  cases c with
  | recv p =>
      simp only [liftCall, Call.recv.injEq] at h
      subst h
      exact ⟨p, rfl, hk⟩
  | _ => simp [liftCall] at h

/-- Only boards of the job take steps. -/
theorem board_of_step (h : Live D s) (hs : step D s e = some s') :
    e.at ∈ Finset.Ico D.masterId D.lastNode := by
  have hhalt := next_not_halted hs
  have hrole := h.inv.role e.at
  rw [Job.board_iff]
  cases hn : s.node e.at with
  | failed => exact absurd hn (h.ok _)
  | absent =>
      rw [hn] at hhalt
      exact absurd rfl hhalt
  | set f =>
      rw [hn] at hrole
      exact hrole.1
  | sendInfo dest k =>
      rw [hn] at hrole
      exact .inl hrole.1
  | sendEnd dest =>
      rw [hn] at hrole
      exact .inl hrole.1
  | _ =>
      rw [hn] at hrole
      first | exact .inl hrole | exact .inr hrole

theorem flood_internal (hnet : D.WiredAs net) (h : Live D s) {u : D.Board}
    (hs : step D s (.internal u.val) = some s') : D.floodOf s' = D.floodOf s ∨
      SetRouting.step net D.master (D.floodOf s) (.internal u) = some (D.floodOf s') := by
  obtain ⟨hcall, heq⟩ := next_internal_iff.mp hs
  change call D u (s.node u) = .internal at hcall
  change s' = s.setNode u (onInternal D u (s.node u)) at heq
  subst heq
  have hrole := h.inv.role u
  cases hn : s.node u with
  | set f =>
      rw [hn] at hcall
      have hcall' := liftCall_eq_internal hcall
      rw [flood_eq hnet] at hcall'
      have hf : (D.floodOf s).node u = f := by simp [Job.floodOf, Job.floodNode, hn]
      refine .inr (next_internal_iff.mpr ⟨?_, ?_⟩)
      · rw [hf]
        exact hcall'
      · rw [Job.floodOf_setNode, hf]
        simp [onInternal, Job.floodNode, SetRouting.program, Job.eq_master_iff]
  | waitReceived r num =>
      rw [hn] at hrole
      refine .inl (Job.floodOf_setNode_same u ?_)
      obtain rfl : u = D.master := Subtype.ext hrole
      rw [hn]
      simp [onInternal, Job.floodNode, Job.floodInit, SetRouting.init, Job.table, Job.master]
  | received table maxNodeId =>
      rw [hn] at hrole
      have hne := Inv.slave_ne_master hrole
      refine .inl (Job.floodOf_setNode_same u ?_)
      obtain ⟨_, _, -, -, hholds⟩ := h.inv.row u hrole
      rw [hn] at hholds
      obtain rfl : table = D.row u := hholds.1
      rw [hn]
      simp [onInternal, Job.floodNode, Job.floodInit, SetRouting.init, Job.table, hne,
        Job.eq_master_iff]
  | sendInfo dest k =>
      refine .inl (Job.floodOf_setNode_same u ?_)
      rw [hn]
      simp only [onInternal]
      split
      · split <;> rfl
      · rfl
  | sendEnd dest =>
      refine .inl (Job.floodOf_setNode_same u ?_)
      rw [hn]
      rfl
  | _ =>
      rw [hn] at hcall
      cases hcall

theorem flood_sent (hnet : D.WiredAs net) (h : Live D s) {u : D.Board}
    (hs : step D s (.sent u.val) = some s') : D.floodOf s' = D.floodOf s ∨
      SetRouting.step net D.master (D.floodOf s) (.sent u) = some (D.floodOf s') := by
  obtain ⟨i, m, hcall, heq⟩ := next_sent_iff.mp hs
  change call D u (s.node u) = .send i m at hcall
  change s' = (s.setNode u (onSent D u (s.node u))).put (wire D u i) m at heq
  subst heq
  by_cases hset : ∃ f, s.node u = .set f
  · obtain ⟨f, hn⟩ := hset
    rw [hn] at hcall
    obtain ⟨k, cmd, hcall', rfl, rfl⟩ := liftCall_eq_send hcall
    rw [flood_eq hnet] at hcall'
    have hf : (D.floodOf s).node u = f := by simp [Job.floodOf, Job.floodNode, hn]
    refine .inr (next_sent_iff.mpr ⟨k, cmd, ?_, ?_⟩)
    · rw [hf]
      exact hcall'
    · rw [Job.floodOf_put_link hnet, Job.floodOf_setNode, hf, hn]
      simp [onSent, Job.floodNode, SetRouting.program, Job.eq_master_iff]
  · push Not at hset
    have hsame : D.floodNode u (onSent D u (s.node u)) = D.floodNode u (s.node u) := by
      cases hn : s.node u with
      | set f => exact absurd hn (hset f)
      | _ => rfl
    obtain ⟨v, rfl⟩ : ∃ v, i = .peer v := by
      rcases send_cases (h.inv.role u) hcall with ⟨-, -, dest, -, hi⟩ |
        ⟨hu, table, maxNodeId, hn, -⟩ | ⟨f, k, hn, -⟩
      · exact ⟨dest, hi⟩
      · obtain ⟨_, _, -, -, hholds⟩ := h.inv.row u hu
        rw [hn] at hholds
        exact ⟨D.masterId, hholds.1⟩
      · exact absurd hn (hset f)
    left
    rw [Job.floodOf_put_peer]
    exact Job.floodOf_setNode_same u hsame

theorem flood_received (hnet : D.WiredAs net) {u : D.Board} {i : Port} {m : Payload}
    (hs : step D s (.received u.val i m) = some s') : D.floodOf s' = D.floodOf s ∨
      ∃ k, SetRouting.step net D.master (D.floodOf s) (.received u k m.command) =
        some (D.floodOf s') := by
  obtain ⟨ports, q, hcall, hport, hchan, heq⟩ := next_received_iff.mp hs
  change call D u (s.node u) = .recv ports at hcall
  change s' = (s.setNode u (onRecv nic u i m (s.node u))).setChan u i q at heq
  subst heq
  rcases recv_cases hcall with ⟨rfl, hn⟩ | ⟨f, hn, hpeer⟩
  · cases i with
    | link k => cases hport
    | peer v =>
        left
        rw [Job.floodOf_setChan_peer]
        refine Job.floodOf_setNode_same u ?_
        rcases hn with ⟨r, num, hn⟩ | ⟨table, maxId, hn⟩
        · rw [hn]
          simp only [onRecv]
          split
          · split <;> rfl
          · rfl
        · rw [hn]
          simp only [onRecv]
          split <;> rfl
  · cases i with
    | peer v =>
        rw [hpeer v] at hport
        cases hport
    | link k =>
        rw [hn] at hcall
        obtain ⟨p, hcall', hp⟩ := liftCall_eq_recv hcall hport
        rw [flood_eq hnet] at hcall'
        have hf : (D.floodOf s).node u = f := by simp [Job.floodOf, Job.floodNode, hn]
        refine .inr ⟨k, next_received_iff.mpr ⟨p, q.map Payload.command, ?_, hp, ?_, ?_⟩⟩
        · rw [hf]
          exact hcall'
        · simp [Job.floodOf, hchan]
        · rw [Job.floodOf_setChan_link, Job.floodOf_setNode, hf, hn]
          rfl

/-- A step of the delivery is a step of the flood or does not touch it. -/
theorem flood_step (hnet : D.WiredAs net) (h : Live D s) (he : e.Faultless)
    (hs : step D s e = some s') : D.floodOf s' = D.floodOf s ∨
      ∃ e', e'.Faultless ∧ SetRouting.step net D.master (D.floodOf s) e' = some (D.floodOf s') := by
  have hboard := board_of_step h hs
  cases e with
  | internal u =>
      refine (flood_internal hnet h (u := ⟨u, hboard⟩) hs).imp_right fun h ↦ ?_
      exact ⟨.internal ⟨u, hboard⟩, trivial, h⟩
  | sent u =>
      refine (flood_sent hnet h (u := ⟨u, hboard⟩) hs).imp_right fun h ↦ ?_
      exact ⟨.sent ⟨u, hboard⟩, trivial, h⟩
  | received u i m =>
      refine (flood_received hnet (u := ⟨u, hboard⟩) hs).imp_right ?_
      rintro ⟨k, h⟩
      exact ⟨.received ⟨u, hboard⟩ k m.command, trivial, h⟩
  | sendError u => exact he.elim
  | recvError u => exact he.elim
  | stray u i m => exact he.elim

theorem flood_refines (hnet : D.WiredAs net) (h : Exec (step D) (init D) tr s)
    (hfree : Meets (fun _ e ↦ e.Faultless) tr) :
    Live D s ∧ Reaches (SetRouting.step net D.master) (fun _ e ↦ e.Faultless) D.floodInit
      (D.floodOf s) := by
  rw [← Job.floodOf_init]
  exact h.reaches_map D.floodOf live_init
    (fun _ _ _ h he hs ↦ ⟨h.step he hs, flood_step hnet h he hs⟩) hfree

end Simulation

/-! ## Every run ends with all tables set -/

/-- No board can go on. -/
def Stuck (D : Job nic) (s : State) : Prop := ∀ e s', e.Faultless → step D s e ≠ some s'

namespace Stuck

variable {u : ℕ}

theorem not_internal (h : Stuck D s) : call D u (s.node u) ≠ .internal := fun hcall ↦
  h (.internal u) _ trivial (next_internal_iff.mpr ⟨hcall, rfl⟩)

theorem not_send (h : Stuck D s) (i : Port) (m : Payload) : call D u (s.node u) ≠ .send i m :=
  fun hcall ↦ h (.sent u) _ trivial (next_sent_iff.mpr ⟨i, m, hcall, rfl⟩)

theorem chan_eq_nil (h : Stuck D s) {ports : Port → Bool}
    (hcall : call D u (s.node u) = .recv ports) {i : Port} (hi : ports i = true) :
    s.chan u i = [] := by
  cases hchan : s.chan u i with
  | nil => rfl
  | cons m q =>
      exact absurd (next_received_iff.mpr ⟨ports, q, hcall, hi, hchan, rfl⟩)
        (h (.received u i m) _ trivial)

/-- The master is past its loops, and has nothing more to send. -/
theorem master_cases (h : Stuck D s) (hl : Live D s) :
    (∃ r num, s.node D.masterId = .waitReceived r num) ∨ ∃ f, s.node D.masterId = .set f := by
  have hrole := hl.inv.role D.masterId
  have hinternal := h.not_internal (u := D.masterId)
  have hsend := h.not_send (u := D.masterId)
  cases hn : s.node D.masterId with
  | waitReceived r num => exact .inl ⟨r, num, rfl⟩
  | set f => exact .inr ⟨f, rfl⟩
  | sendInfo dest k =>
      rw [hn] at hinternal hsend
      by_cases hcond : dest < D.lastNode ∧ k < D.lastNode ∧ D.routingTables dest k ≠ 0
      · exact absurd (if_pos hcond) (hsend _ _)
      · exact absurd (if_neg hcond) hinternal
  | sendEnd dest =>
      rw [hn] at hinternal hsend
      by_cases hcond : dest < D.lastNode
      · exact absurd (if_pos hcond) (hsend _ _)
      · exact absurd (if_neg hcond) hinternal
  | failed => exact absurd hn (hl.ok _)
  | absent =>
      rw [hn] at hrole
      exact absurd rfl hrole.1
  | _ =>
      rw [hn] at hrole
      exact absurd hrole.1 (lt_irrefl _)

theorem slave_set (h : Stuck D s) (hl : Live D s) {d : ℕ} (hd : D.Slave d) :
    ∃ f, s.node d = .set f := by
  have hrole := hl.inv.role d
  have hinternal := h.not_internal (u := d)
  have hsend := h.not_send (u := d)
  cases hn : s.node d with
  | set f => exact ⟨f, rfl⟩
  | receiving table maxId =>
      have hcall : call D d (s.node d) = .recv Port.isPeer := by
        rw [hn]
        rfl
      have hchan : s.chan d (.peer D.masterId) = [] := h.chan_eq_nil hcall rfl
      have hpending : D.pending d (s.node D.masterId) = [] := by
        rcases h.master_cases hl with ⟨r, num, hm⟩ | ⟨f, hm⟩ <;> rw [hm] <;> rfl
      have hlast := hl.awaits d hd (by rw [hn]; trivial)
      rw [hchan, hpending] at hlast
      cases hlast
  | replying src table maxNodeId =>
      rw [hn] at hsend
      exact absurd rfl (hsend _ _)
  | received table maxNodeId =>
      rw [hn] at hinternal
      exact absurd rfl hinternal
  | failed => exact absurd hn (hl.ok _)
  | absent =>
      rw [hn] at hrole
      exact absurd hd hrole.2
  | waitReceived r num =>
      rw [hn] at hrole
      exact absurd hrole (Inv.slave_ne_master hd)
  | _ =>
      rw [hn] at hrole
      exact absurd hrole.1 (Inv.slave_ne_master hd)

theorem master_set (h : Stuck D s) (hl : Live D s) : ∃ f, s.node D.masterId = .set f := by
  rcases h.master_cases hl with ⟨r, num, hn⟩ | hset
  · exfalso
    have hinternal := h.not_internal (u := D.masterId)
    by_cases hnum : num ≠ D.lastNode - D.masterId - 1
    · -- it would have counted all the slaves
      have hcall : call D D.masterId (s.node D.masterId) = .recv Port.isPeer := by
        rw [hn]
        exact if_pos hnum
      obtain ⟨-, hcard⟩ := hl.inv.counted r num hn
      have hall : (Finset.Ioo D.masterId D.lastNode).filter (fun k ↦ r k = true) =
          Finset.Ioo D.masterId D.lastNode := by
        refine Finset.filter_true_of_mem fun d hd ↦ ?_
        have hslave : D.Slave d := Finset.mem_Ioo.mp hd
        obtain ⟨f, hf⟩ := h.slave_set hl hslave
        by_contra hr
        have hmem := hl.answered d hslave (by rw [hf]; trivial)
          (by rw [hn]; exact Bool.eq_false_of_not_eq_true hr)
        rw [h.chan_eq_nil hcall (i := .peer d) rfl] at hmem
        cases hmem
      rw [hall, Nat.card_Ioo] at hcard
      exact hnum hcard
    · rw [hn] at hinternal
      exact hinternal (if_neg hnum)
  · exact hset

theorem all_set (h : Stuck D s) (hl : Live D s) (w : D.Board) : ∃ f, s.node w = .set f := by
  rcases Job.board_iff.mp w.property with hw | hw
  · rw [hw]
    exact h.master_set hl
  · exact h.slave_set hl hw

/-- When no board can go on, none can in the flood. -/
theorem flood (h : Stuck D s) (hl : Live D s) {net : Network nic D.Board} (hnet : D.WiredAs net) :
    SetRouting.Stuck net D.master (D.floodOf s) := by
  have hset := h.all_set hl
  have hcall : ∀ w : D.Board, call D w (s.node w) =
      liftCall (SetRouting.call nic (SetRouting.connected net w) ((D.floodOf s).node w)) := by
    intro w
    obtain ⟨f, hf⟩ := hset w
    rw [← flood_eq hnet]
    simp [call, Job.floodOf, Job.floodNode, hf]
  intro e s' he hs
  cases e with
  | internal u =>
      obtain ⟨hc, -⟩ := next_internal_iff.mp hs
      refine h.not_internal ((hcall u).trans ?_)
      exact congrArg liftCall hc
  | sent u =>
      obtain ⟨k, cmd, hc, -⟩ := next_sent_iff.mp hs
      exact h.not_send (.link k) ⟨cmd, 0, 0⟩ ((hcall u).trans (congrArg liftCall hc))
  | received u k cmd =>
      obtain ⟨p, q, hc, hp, hchan, -⟩ := next_received_iff.mp hs
      have hnil : s.chan u (.link k) = [] :=
        h.chan_eq_nil ((hcall u).trans (congrArg liftCall hc)) hp
      simp [Job.floodOf, hnil] at hchan
  | sendError u => exact he.elim
  | recvError u => exact he.elim
  | stray u i m => exact he.elim

end Stuck

/-- A board's registers hold its table once it has written it. -/
def Registers (D : Job nic) (w : ℕ) (n : SetRouting.Node) : Prop :=
  n.mem.routingTable = Function.update (D.table w) w (1#8 <<< nic.routingLoopbackIf) ∧
    (0 < n.mem.writes → ∀ k < nic.nodesNum, n.mem.hardware k = n.mem.routingTable k)

namespace Registers

variable {w : ℕ} {n : SetRouting.Node}

theorem onInternal (h : Registers D w n) (master : Bool) :
    Registers D w (SetRouting.onInternal nic master n) := by
  have hmem : (SetRouting.onInternal nic master n).mem = n.mem := by
    unfold SetRouting.onInternal
    split <;> try split
    all_goals rfl
  rw [Registers, hmem]
  exact h

theorem onSent (h : Registers D w n) (master : Bool) :
    Registers D w (SetRouting.onSent master n) := by
  have hhard : (SetRouting.onSent master n).mem.hardware = n.mem.hardware := by
    unfold SetRouting.onSent
    cases master <;> split <;> rfl
  rw [Registers, routingTable_onSent, writes_onSent, hhard]
  exact h

theorem onRecv (h : Registers D w n) (cmd : RtCmd) :
    Registers D w (SetRouting.onRecv nic cmd n) := by
  refine ⟨(routingTable_onRecv _ n).trans h.1, ?_⟩
  obtain ⟨pc, mem⟩ := n
  cases pc with
  | waitFirst =>
      simp only [SetRouting.onRecv]
      split
      · intro _ k hk
        exact if_pos hk
      · exact h.2
  | _ => exact h.2

end Registers

theorem registers_flood {net : Network nic D.Board} {t : SetRouting.State D.Board}
    (h : Reaches (SetRouting.step net D.master) (fun _ e ↦ e.Faultless) D.floodInit t)
    (w : D.Board) : Registers D w (t.node w) := by
  obtain ⟨tr, hexec, hfree⟩ := h
  refine hexec.invariant (I := fun t ↦ ∀ w : D.Board, Registers D w (t.node w)) (fun w ↦ ?_)
    (fun t e t' hI he hs ↦ ?_) hfree w
  · by_cases hw : w = D.master
    · simp +contextual [Job.floodInit, SetRouting.init, SetRouting.axiomSetRoutingTable, hw,
        Registers, SetRouting.axiomWriteRoutingTable]
    · simp [Job.floodInit, SetRouting.init, SetRouting.axiomSetRoutingTable, hw, Registers]
  · exact next_local_of_faultless (V := D.Board) (P := fun w n ↦ Registers D w n)
      (fun _ _ h ↦ h.onInternal _) (fun _ _ h ↦ h.onSent _) (fun _ _ _ m h ↦ h.onRecv m) he hI hs

/-! ### Runs are finite -/

section Weight

/-- A bound for the calls a board has yet to make. -/
def nodeRank (D : Job nic) : Node → ℕ
  | .sendInfo dest k =>
      (D.lastNode - dest) * (2 * D.lastNode + 1) + 2 * (D.lastNode - k) +
        2 * D.lastNode + 4 * nic.interfacesNum + 6
  | .sendEnd dest => 2 * (D.lastNode - dest) + 4 * nic.interfacesNum + 5
  | .waitReceived _ _ => 4 * nic.interfacesNum + 4
  | .receiving _ _ => 4 * nic.interfacesNum + 7
  | .replying _ _ _ => 4 * nic.interfacesNum + 7
  | .received _ _ => 4 * nic.interfacesNum + 5
  | .set n => SetRouting.nodeRank nic n
  | .failed => 0
  | .absent => 0

theorem nodeRank_onInternal (u : ℕ) (n : Node) (hcall : call D u n = .internal) :
    nodeRank D (onInternal D u n) < nodeRank D n := by
  cases n with
  | sendInfo dest k =>
      simp only [onInternal]
      split
      · next hdest =>
          split
          · simp only [nodeRank]
            omega
          · -- the next row
            obtain ⟨x, hx⟩ : ∃ x, D.lastNode - dest = x + 1 :=
              Nat.exists_eq_add_one.mpr (by omega)
            have hx' : D.lastNode - (dest + 1) = x := by omega
            simp only [nodeRank, hx, hx', Nat.add_mul]
            omega
      · simp only [nodeRank]
        omega
  | sendEnd dest =>
      simp only [onInternal, nodeRank]
      omega
  | waitReceived r num =>
      simp only [onInternal, nodeRank, SetRouting.axiomSetRoutingTable, SetRouting.nodeRank,
        SetRouting.axiomWriteRoutingTable, if_true]
      omega
  | received table maxNodeId =>
      simp [onInternal, nodeRank, SetRouting.axiomSetRoutingTable, SetRouting.nodeRank]
  | set f => exact SetRouting.nodeRank_onInternal _ _ f (liftCall_eq_internal hcall)
  | _ => cases hcall

theorem nodeRank_onSent (u : ℕ) (n : Node) (i : Port) (m : Payload)
    (hcall : call D u n = .send i m) : nodeRank D (onSent D u n) + 1 < nodeRank D n := by
  cases n with
  | sendInfo dest k =>
      have hk : k < D.lastNode := by
        by_contra hk
        simp [call, hk] at hcall
      simp only [onSent, nodeRank]
      omega
  | sendEnd dest =>
      have hdest : dest < D.lastNode := by
        by_contra hdest
        simp [call, hdest] at hcall
      simp only [onSent, nodeRank]
      omega
  | waitReceived r num =>
      simp only [call] at hcall
      split at hcall <;> cases hcall
  | replying src table maxNodeId => simp [onSent, nodeRank]
  | set f =>
      obtain ⟨k, cmd, hcall', -⟩ := liftCall_eq_send hcall
      exact SetRouting.nodeRank_onSent _ _ f k cmd hcall'
  | _ => cases hcall

theorem nodeRank_onRecv (u : ℕ) (n : Node) (ports : Port → Bool) (i : Port) (m : Payload)
    (hcall : call D u n = .recv ports) :
    nodeRank D (onRecv nic u i m n) < nodeRank D n + 1 := by
  cases n with
  | waitReceived r num =>
      simp only [onRecv]
      split
      · split <;> simp [nodeRank]
      · simp [nodeRank]
  | receiving table maxId =>
      simp only [onRecv]
      split <;> simp [nodeRank]
  | set f =>
      cases hflood : flood D u f with
      | recv p => exact SetRouting.nodeRank_onRecv _ f p m.command hflood
      | _ =>
          simp only [call, hflood] at hcall
          cases hcall
  | sendInfo dest k =>
      simp only [call] at hcall
      split at hcall <;> cases hcall
  | sendEnd dest =>
      simp only [call] at hcall
      split at hcall <;> cases hcall
  | _ => cases hcall

/-- The ports messages of the routing protocol arrive at. -/
def Job.ports (D : Job nic) : Finset (ℕ × Port) :=
  Finset.Ico D.masterId D.lastNode ×ˢ
    ((Finset.Ico D.masterId D.lastNode).image .peer ∪ (Finset.range nic.interfacesNum).image .link)

def weight (D : Job nic) (s : State) : ℕ :=
  s.weightOn (Finset.Ico D.masterId D.lastNode) D.ports (fun _ ↦ nodeRank D) fun _ ↦ 1

theorem step_weight_lt (he : e.Faultless) (hat : e.at ∈ Finset.Ico D.masterId D.lastNode)
    (hport : ∀ u i m, e = .received u i m → (u, i) ∈ D.ports) (hs : step D s e = some s') :
    weight D s' < weight D s :=
  next_weightOn_lt nodeRank_onInternal nodeRank_onSent nodeRank_onRecv he hat hport hs

variable {net : Network nic D.Board}

/-- Messages are read where some are sent to. -/
theorem port_of_step (h : Live D s)
    (hflood : Reaches (SetRouting.step net D.master) (fun _ e ↦ e.Faultless) D.floodInit
      (D.floodOf s)) (hs : step D s e = some s') (u : ℕ) (i : Port) (m : Payload)
    (he : e = .received u i m) : (u, i) ∈ D.ports := by
  subst he
  have hboard : u ∈ Finset.Ico D.masterId D.lastNode := board_of_step h hs
  obtain ⟨ports, q, hcall, hport, hchan, -⟩ := next_received_iff.mp hs
  refine Finset.mem_product.mpr ⟨hboard, Finset.mem_union.mpr ?_⟩
  cases i with
  | peer v =>
      refine .inl (Finset.mem_image.mpr ⟨v, Job.board_iff.mpr ?_, rfl⟩)
      rcases Job.board_iff.mp hboard with rfl | hu
      · exact .inr (h.inv.replies v m (by simp [hchan])).2.1
      · left
        by_contra hv
        rw [h.inv.peers u v hu hv] at hchan
        cases hchan
  | link k =>
      refine .inr (Finset.mem_image.mpr ⟨k, Finset.mem_range.mpr ?_, rfl⟩)
      obtain ⟨tr, hexec, hfree⟩ := hflood
      have hcons := SetRouting.Conserved.exec hexec hfree
      cases hwire : net.wire ⟨u, hboard⟩ k with
      | none =>
          have hnil := (hcons.unwired _ k hwire).2
          simp [Job.floodOf, hchan] at hnil
      | some p => exact net.lt_interfacesNum hwire

theorem length_le_weight (hnet : D.WiredAs net) (h : Exec (step D) (init D) tr s)
    (hfree : Meets (fun _ e ↦ e.Faultless) tr) : tr.length + weight D s ≤ weight D (init D) := by
  induction h with
  | nil => simp
  | @snoc tr s s' e hexec hs ih =>
      obtain ⟨htr, he⟩ := meets_append.mp hfree
      rw [meets_singleton] at he
      obtain ⟨hlive, hflood⟩ := flood_refines hnet hexec htr
      have hlt := step_weight_lt he (board_of_step hlive hs) (port_of_step hlive hflood hs) hs
      have hle := ih htr
      simp only [List.length_append, List.length_singleton]
      omega

/-- Some fault-free routing phase goes on until no board can. -/
theorem exists_complete_phase (hnet : D.WiredAs net) :
    ∃ tr s, Exec (step D) (init D) tr s ∧ Meets (fun _ e ↦ e.Faultless) tr ∧ Stuck D s := by
  have hdec : ∀ (s : State) e s', (e.Faultless ∧ e.at ∈ Finset.Ico D.masterId D.lastNode ∧
      ∀ u i m, e = .received u i m → (u, i) ∈ D.ports) → step D s e = some s' →
        weight D s' < weight D s :=
    fun _ _ _ hC hs ↦ step_weight_lt hC.1 hC.2.1 hC.2.2 hs
  obtain ⟨tr, s, hexec, hmeets, hmax⟩ := Exec.exists_maximal (weight D) hdec (init D)
  have hfree := hmeets.mono fun _ _ h ↦ h.1
  obtain ⟨hlive, hflood⟩ := flood_refines hnet hexec hfree
  refine ⟨tr, s, hexec, hfree, fun e s' he hs ↦ ?_⟩
  exact hmax e s' ⟨he, board_of_step hlive hs, port_of_step hlive hflood hs⟩ hs

end Weight

/-- The board has returned from `axiom_set_routing_table` with its table in its registers. -/
def Committed (D : Job nic) (w : ℕ) (n : Node) : Prop :=
  ∃ f, n = .set f ∧ f.pc = .returned .ok ∧ f.mem.writes = 1 ∧ ∀ k < nic.nodesNum,
    f.mem.hardware k = Function.update (D.table w) w (1#8 <<< nic.routingLoopbackIf) k

theorem committed_of_stuck {net : Network nic D.Board} (hnet : D.WiredAs net)
    (h : Exec (step D) (init D) tr s) (hfree : Meets (fun _ e ↦ e.Faultless) tr)
    (hstuck : Stuck D s) (w : D.Board) : Committed D w (s.node w) := by
  obtain ⟨hlive, hflood⟩ := flood_refines hnet h hfree
  obtain ⟨f, hf⟩ := hstuck.all_set hlive w
  have hnode : (D.floodOf s).node w = f := by simp [Job.floodOf, Job.floodNode, hf]
  obtain ⟨htable, hhard⟩ := registers_flood hflood w
  obtain ⟨tr', hexec, htr'⟩ := hflood
  have hcons := SetRouting.Conserved.exec hexec htr'
  have hret := hcons.returned_of_stuck (hstuck.flood hlive hnet) w
  have hwrites := hcons.orderly w
  simp only [SetRouting.Orderly, hret] at hwrites
  rw [hnode] at htable hhard hret hwrites
  refine ⟨f, hf, hret, hwrites.2, fun k hk ↦ ?_⟩
  rw [hhard (by omega) k hk, htable]

/-- A fault-free routing phase, from the master's first message on, is never longer than its
first weight, and a board can go on until all of them have returned from
`axiom_set_routing_table`, each with the row the master computed for it, and the loopback
entry for itself, in its registers. -/
theorem routing_phase_completes (D : Job nic) (net : Network nic D.Board) (hnet : D.WiredAs net)
    (h : Exec (step D) (init D) tr s) (hfree : Meets (fun _ e ↦ e.Faultless) tr) :
    tr.length ≤ weight D (init D) ∧
      ((∃ e s', e.Faultless ∧ step D s e = some s') ∨ ∀ w : D.Board, Committed D w (s.node w)) := by
  refine ⟨le_of_add_le_left (length_le_weight hnet h hfree), ?_⟩
  by_cases hstuck : Stuck D s
  · exact .inr (committed_of_stuck hnet h hfree hstuck)
  · simp only [Stuck, not_forall, not_not] at hstuck
    obtain ⟨e, s', he, hs⟩ := hstuck
    exact .inl ⟨e, s', he, hs⟩

def rowBoards : Fin 3 ≃ rowJob.Board where
  toFun k := ⟨k, Finset.mem_Ico.mpr ⟨Nat.zero_le _, k.isLt⟩⟩
  invFun w := ⟨w, (Finset.mem_Ico.mp w.property).2⟩
  left_inv _ := rfl
  right_inv _ := rfl

theorem rowJob_wiredAs : rowJob.WiredAs ((chain 2).map rowBoards) := by
  rintro ⟨u, hu⟩ i
  have hlt : u < 3 := (Finset.mem_Ico.mp hu).2
  rcases i with - | - | i
  · interval_cases u <;> rfl
  · interval_cases u <;> rfl
  · simp [rowJob, Network.map, chain, chainWire]

theorem routing_phase_completes_row : ∃ tr s, Exec (step rowJob) (init rowJob) tr s ∧
    Meets (fun _ e ↦ e.Faultless) tr ∧ tr.length ≤ weight rowJob (init rowJob) ∧
    ∀ w : rowJob.Board, Committed rowJob w (s.node w) := by
  obtain ⟨tr, s, hexec, hfree, hstuck⟩ := exists_complete_phase rowJob_wiredAs
  obtain ⟨hlen, ⟨e, s', he, hs⟩ | hall⟩ :=
    routing_phase_completes rowJob _ rowJob_wiredAs hexec hfree
  · exact absurd hs (hstuck e s' he)
  · exact ⟨tr, s, hexec, hfree, hlen, hall⟩

end AxiomApps.Delivery
