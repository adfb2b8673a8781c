import AxiomApps.Lib.FifoNet
import AxiomApps.Nic

/-!
# Setting the routing tables

`axiom_set_routing_table` floods the network: the master writes its table and sends
`AXIOM_RT_CMD_SET_ROUTING` over all its links, every other board does so when the
first such message reaches it, and all of them read as many messages as they have
links before they return.
-/

namespace AxiomApps.SetRouting

open FifoNet EventSystem

/-- The commands `AXIOM_RT_CMD_…`. -/
inductive RtCmd
  | info
  | endInfo
  | rtReply
  | setRouting
  deriving DecidableEq, Repr

inductive Pc
  /-- a slave waits for the first message -/
  | waitFirst
  /-- the loop that sends over the connected interfaces -/
  | sending (i : ℕ)
  /-- the master's loop over the interfaces that receives -/
  | masterReceiving (i : ℕ)
  /-- the slave's loop that receives while `num_interface > 1` -/
  | slaveReceiving
  | returned (ret : AxiomRet)
  deriving DecidableEq, Repr

/-- The table to set, the registers, the counter of a slave's links, and the number of
calls of `axiom_write_routing_table` so far. -/
structure Mem where
  routingTable : RoutingTable
  hardware : RoutingTable
  numInterface : ℕ
  writes : ℕ

structure Node where
  pc : Pc
  mem : Mem

section Steps

variable (nic : NicLimits)

def axiomWriteRoutingTable (m : Mem) : Mem :=
  { m with
    hardware := fun k ↦ if k < nic.nodesNum then m.routingTable k else m.hardware k
    writes := m.writes + 1 }

/-- `axiom_set_routing_table` up to its first send or receive -/
def axiomSetRoutingTable (master : Bool) (nodeId : ℕ) (m : Mem) : Node :=
  let m' : Mem := { m with
    routingTable := Function.update m.routingTable nodeId (1#8 <<< nic.routingLoopbackIf)
    numInterface := 0 }
  if master then { pc := .sending 0, mem := axiomWriteRoutingTable nic m' }
  else { pc := .waitFirst, mem := m' }

variable (connected : ℕ → Bool) (master : Bool)

def call (n : Node) : Call ℕ RtCmd :=
  match n.pc with
  | .waitFirst => .recv fun _ ↦ true
  | .sending i =>
      if i < nic.interfacesNum ∧ connected i = true then .send i .setRouting else .internal
  | .masterReceiving i =>
      if i < nic.interfacesNum ∧ connected i = true then .recv fun _ ↦ true else .internal
  | .slaveReceiving => if 1 < n.mem.numInterface then .recv fun _ ↦ true else .internal
  | .returned _ => .halted

/-- Interfaces without a cable are passed over, and the loops end. -/
def onInternal (n : Node) : Node :=
  match n.pc with
  | .sending i =>
      if i < nic.interfacesNum then { n with pc := .sending (i + 1) }
      else { n with pc := if master then .masterReceiving 0 else .slaveReceiving }
  | .masterReceiving i =>
      if i < nic.interfacesNum then { n with pc := .masterReceiving (i + 1) }
      else { n with pc := .returned .ok }
  | .slaveReceiving => { n with pc := .returned .ok }
  | _ => n

def onSent (n : Node) : Node :=
  match n.pc with
  | .sending i =>
      { pc := .sending (i + 1)
        mem := if master then n.mem
          else { n.mem with numInterface := n.mem.numInterface + 1 } }
  | _ => n

def onRecv (cmd : RtCmd) (n : Node) : Node :=
  match n.pc with
  | .waitFirst =>
      if cmd = .setRouting then { pc := .sending 0, mem := axiomWriteRoutingTable nic n.mem } else n
  | .masterReceiving i => { n with pc := .masterReceiving (i + 1) }
  | .slaveReceiving => { n with mem := { n.mem with numInterface := n.mem.numInterface - 1 } }
  | _ => n

def onError (n : Node) : Node := { n with pc := .returned .error }

def program : Program Node ℕ RtCmd where
  call := call nic connected
  onInternal := onInternal nic master
  onSent := onSent master
  onSendError := onError
  onRecv _ := onRecv nic
  onRecvError := onError

end Steps

variable {nic : NicLimits} {V : Type*} [DecidableEq V]

abbrev State (V : Type*) := Net V Node ℕ RtCmd

def connected (net : Network nic V) (u : V) (i : ℕ) : Bool := (net.wire u i).isSome

def step (net : Network nic V) (master : V) : State V → Event V ℕ RtCmd → Option (State V) :=
  next (fun u ↦ program nic (connected net u) (u = master)) net.wire

/-- All boards enter the function with their ids and their tables. -/
def init (nic : NicLimits) (master : V) (nodeId : V → ℕ) (mem : V → Mem) : State V where
  node w := axiomSetRoutingTable nic (w = master) (nodeId w) { mem w with writes := 0 }
  chan _ _ := []

/-! ## What a board has sent and received -/

def below (c : ℕ → Bool) (k : ℕ) : ℕ := ((Finset.range k).filter fun i ↦ c i = true).card

theorem below_succ_of_connected {c : ℕ → Bool} {k : ℕ} (h : c k = true) :
    below c (k + 1) = below c k + 1 := by
  rw [below, Finset.range_add_one, Finset.filter_insert, if_pos h,
    Finset.card_insert_of_notMem (by simp)]
  rfl

theorem below_succ_of_not {c : ℕ → Bool} {k : ℕ} (h : ¬ c k = true) :
    below c (k + 1) = below c k := by
  rw [below, Finset.range_add_one, Finset.filter_insert, if_neg h]
  rfl

theorem below_mono {c : ℕ → Bool} {k l : ℕ} (h : k ≤ l) : below c k ≤ below c l :=
  Finset.card_le_card (Finset.filter_subset_filter _ (Finset.range_subset_range.mpr h))

/-- The board has sent over interface `i`, if it is connected. -/
def SentOn (n : Node) (i : ℕ) : Prop :=
  match n.pc with
  | .waitFirst => False
  | .sending k => i < k
  | _ => True

instance (n : Node) (i : ℕ) : Decidable (SentOn n i) := by
  unfold SentOn
  split <;> infer_instance

def got (nic : NicLimits) (c : ℕ → Bool) (master : Bool) (n : Node) : ℕ :=
  match n.pc with
  | .waitFirst => 0
  | .sending _ => if master then 0 else 1
  | .masterReceiving k => below c k
  | .slaveReceiving => below c nic.interfacesNum + 1 - n.mem.numInterface
  | .returned _ => below c nic.interfacesNum

/-- What holds of a board on its own: where it can be, its counters, and its one write. -/
def Orderly (nic : NicLimits) (c : ℕ → Bool) (master : Bool) (n : Node) : Prop :=
  match n.pc with
  | .waitFirst => master = false ∧ n.mem.writes = 0 ∧ n.mem.numInterface = 0
  | .sending k => k ≤ nic.interfacesNum ∧ n.mem.writes = 1 ∧
      (master = false → n.mem.numInterface = below c k)
  | .masterReceiving k => master = true ∧ k ≤ nic.interfacesNum ∧ n.mem.writes = 1
  | .slaveReceiving => master = false ∧ n.mem.writes = 1 ∧ 1 ≤ n.mem.numInterface ∧
      n.mem.numInterface ≤ below c nic.interfacesNum
  | .returned ret => ret = .ok ∧ n.mem.writes = 1

/-- Every link carries one message each way: what has been read from it and what waits
there is what the far end has sent. -/
structure Conserved (net : Network nic V) (master : V) (tr : List (State V × Event V ℕ RtCmd))
    (s : State V) : Prop where
  orderly : ∀ w, Orderly nic (connected net w) (w = master) (s.node w)
  link : ∀ w i v j, net.wire w i = some (v, j) →
    receipts tr v j + (s.chan v j).length = if SentOn (s.node w) i then 1 else 0
  unwired : ∀ v j, net.wire v j = none → receipts tr v j = 0 ∧ s.chan v j = []
  total : ∀ v, ∑ j ∈ Finset.range nic.interfacesNum, receipts tr v j =
    got nic (connected net v) (v = master) (s.node v)
  cmds : ∀ v j, ∀ m ∈ s.chan v j, m = .setRouting

def Stuck (net : Network nic V) (master : V) (s : State V) : Prop :=
  ∀ e s', e.Faultless → step net master s e ≠ some s'

variable {net : Network nic V} {master : V} {nodeId : V → ℕ} {mem : V → Mem} {s s' : State V}
variable {tr : List (State V × Event V ℕ RtCmd)} {e : Event V ℕ RtCmd}

theorem conserved_init : Conserved net master [] (init nic master nodeId mem) := by
  refine ⟨?_, ?_, ?_, ?_, ?_⟩
  · intro w
    by_cases hw : w = master
    · simp [Orderly, init, axiomSetRoutingTable, hw, axiomWriteRoutingTable]
    · simp [Orderly, init, axiomSetRoutingTable, hw]
  · intro w i v j _
    by_cases hw : w = master
    · simp [SentOn, init, axiomSetRoutingTable, hw]
    · simp [SentOn, init, axiomSetRoutingTable, hw]
  · intro v j _
    exact ⟨rfl, rfl⟩
  · intro v
    by_cases hv : v = master
    · simp [got, init, axiomSetRoutingTable, hv]
    · simp [got, init, axiomSetRoutingTable, hv]
  · intro v j m hm
    simp [init] at hm

/-! ## The steps of one board -/

section Local

variable {c : ℕ → Bool} {b : Bool} {n : Node}

theorem local_internal (hcall : call nic c n = .internal) (ho : Orderly nic c b n)
    (hle : got nic c b n ≤ below c nic.interfacesNum) :
    Orderly nic c b (onInternal nic b n) ∧ got nic c b (onInternal nic b n) = got nic c b n ∧
      ∀ i < nic.interfacesNum, c i = true → (SentOn (onInternal nic b n) i ↔ SentOn n i) := by
  obtain ⟨pc, m⟩ := n
  cases pc with
  | waitFirst => simp [call] at hcall
  | sending k =>
      obtain ⟨hk, hw, hnum⟩ := ho
      by_cases hlt : k < nic.interfacesNum
      · have hck : ¬ c k = true := by
          intro hck
          simp [call, hlt, hck] at hcall
        have hnode : onInternal nic b ⟨.sending k, m⟩ = ⟨.sending (k + 1), m⟩ := by
          simp [onInternal, hlt]
        rw [hnode]
        refine ⟨⟨hlt, hw, fun hb ↦ ?_⟩, rfl, fun i _ hci ↦ ?_⟩
        · rw [below_succ_of_not hck]
          exact hnum hb
        · have hik : i ≠ k := by
            rintro rfl
            exact hck hci
          simp only [SentOn]
          omega
      · obtain rfl : k = nic.interfacesNum := by omega
        cases b with
        | true =>
            have hnode : onInternal nic true ⟨.sending nic.interfacesNum, m⟩ =
                ⟨.masterReceiving 0, m⟩ := by
              simp [onInternal]
            rw [hnode]
            refine ⟨⟨rfl, Nat.zero_le _, hw⟩, ?_, fun i hi _ ↦ ?_⟩
            · simp [got, below]
            · simp [SentOn, hi]
        | false =>
            have hnode : onInternal nic false ⟨.sending nic.interfacesNum, m⟩ =
                ⟨.slaveReceiving, m⟩ := by
              simp [onInternal]
            have hnum := hnum rfl
            have hpos : 1 ≤ below c nic.interfacesNum := by simpa [got] using hle
            change m.numInterface = below c nic.interfacesNum at hnum
            rw [hnode]
            refine ⟨⟨rfl, hw, ?_, ?_⟩, ?_, fun i hi _ ↦ by simp [SentOn, hi]⟩
            · exact hpos.trans_eq hnum.symm
            · exact hnum.le
            · simp only [got, hnum]
              simp
  | masterReceiving k =>
      obtain ⟨hb, hk, hw⟩ := ho
      by_cases hlt : k < nic.interfacesNum
      · have hck : ¬ c k = true := by
          intro hck
          simp [call, hlt, hck] at hcall
        have hnode : onInternal nic b ⟨.masterReceiving k, m⟩ = ⟨.masterReceiving (k + 1), m⟩ := by
          simp [onInternal, hlt]
        rw [hnode]
        exact ⟨⟨hb, hlt, hw⟩, below_succ_of_not hck, fun i _ _ ↦ Iff.rfl⟩
      · obtain rfl : k = nic.interfacesNum := by omega
        have hnode : onInternal nic b ⟨.masterReceiving nic.interfacesNum, m⟩ =
            ⟨.returned .ok, m⟩ := by
          simp [onInternal]
        rw [hnode]
        exact ⟨⟨rfl, hw⟩, rfl, fun i _ _ ↦ Iff.rfl⟩
  | slaveReceiving =>
      obtain ⟨hb, hw, hpos, hnum⟩ := ho
      change 1 ≤ m.numInterface at hpos
      have hone : ¬ 1 < m.numInterface := by
        intro hlt
        simp [call, hlt] at hcall
      refine ⟨⟨rfl, hw⟩, ?_, fun i _ _ ↦ Iff.rfl⟩
      simp only [onInternal, got]
      omega
  | returned ret => simp [call] at hcall

theorem local_sent {i : ℕ} {m : RtCmd} (hcall : call nic c n = .send i m)
    (ho : Orderly nic c b n) :
    (m = .setRouting ∧ c i = true) ∧ Orderly nic c b (onSent b n) ∧
      got nic c b (onSent b n) = got nic c b n ∧ ¬ SentOn n i ∧
      ∀ k, SentOn (onSent b n) k ↔ SentOn n k ∨ k = i := by
  obtain ⟨pc, mem⟩ := n
  cases pc with
  | sending k =>
      have hcond : k < nic.interfacesNum ∧ c k = true := by
        by_contra hnot
        simp [call, hnot] at hcall
      obtain ⟨rfl, rfl⟩ : k = i ∧ .setRouting = m := by simpa [call, hcond] using hcall
      obtain ⟨-, hw, hnum⟩ := ho
      refine ⟨⟨rfl, hcond.2⟩, ?_, rfl, by simp [SentOn], fun k' ↦ ?_⟩
      · cases b with
        | true => exact ⟨hcond.1, hw, fun hb ↦ by cases hb⟩
        | false =>
            refine ⟨hcond.1, hw, fun _ ↦ ?_⟩
            rw [below_succ_of_connected hcond.2, ← hnum rfl]
            rfl
      · simp only [onSent, SentOn]
        omega
  | waitFirst => simp [call] at hcall
  | masterReceiving k =>
      simp only [call] at hcall
      split at hcall <;> cases hcall
  | slaveReceiving =>
      simp only [call] at hcall
      split at hcall <;> cases hcall
  | returned ret => simp [call] at hcall

theorem local_recv {ports : ℕ → Bool} (hcall : call nic c n = .recv ports)
    (ho : Orderly nic c b n) :
    Orderly nic c b (onRecv nic .setRouting n) ∧
      got nic c b (onRecv nic .setRouting n) = got nic c b n + 1 ∧
      ∀ k, SentOn (onRecv nic .setRouting n) k ↔ SentOn n k := by
  obtain ⟨pc, mem⟩ := n
  cases pc with
  | waitFirst =>
      obtain ⟨rfl, hw, hnum⟩ := ho
      refine ⟨⟨Nat.zero_le _, congrArg (· + 1) hw, fun _ ↦ hnum⟩, rfl, fun k ↦ ?_⟩
      simp [onRecv, SentOn]
  | masterReceiving k =>
      have hcond : k < nic.interfacesNum ∧ c k = true := by
        by_contra hnot
        simp [call, hnot] at hcall
      obtain ⟨hb, -, hw⟩ := ho
      exact ⟨⟨hb, hcond.1, hw⟩, below_succ_of_connected hcond.2, fun k ↦ Iff.rfl⟩
  | slaveReceiving =>
      have hlt : 1 < mem.numInterface := by
        by_contra hnot
        simp [call, hnot] at hcall
      obtain ⟨hb, hw, -, hnum⟩ := ho
      change mem.numInterface ≤ below c nic.interfacesNum at hnum
      refine ⟨⟨hb, hw, ?_, ?_⟩, ?_, fun k ↦ Iff.rfl⟩
      · change 1 ≤ mem.numInterface - 1
        omega
      · change mem.numInterface - 1 ≤ below c nic.interfacesNum
        omega
      · simp only [onRecv, got]
        omega
  | sending k =>
      simp only [call] at hcall
      split at hcall <;> cases hcall
  | returned ret => simp [call] at hcall

end Local

/-! ## Conservation along a run -/

namespace Conserved

/-- At most one message comes in by a connected interface, none by another. -/
theorem receipts_le (h : Conserved net master tr s) (v : V) (j : ℕ) :
    receipts tr v j ≤ if connected net v j = true then 1 else 0 := by
  cases hwire : net.wire v j with
  | none => rw [(h.unwired v j hwire).1]; exact Nat.zero_le _
  | some p =>
      obtain ⟨w, i⟩ := p
      have hlink := h.link w i v j (net.symm hwire)
      have hconn : connected net v j = true := by simp [connected, hwire]
      rw [if_pos hconn]
      split at hlink <;> omega

omit [DecidableEq V] in
theorem sum_connected (net : Network nic V) (v : V) :
    ∑ j ∈ Finset.range nic.interfacesNum, (if connected net v j = true then 1 else 0) =
      below (connected net v) nic.interfacesNum := by
  rw [below, Finset.card_filter]

theorem got_le (h : Conserved net master tr s) (v : V) :
    got nic (connected net v) (v = master) (s.node v) ≤
      below (connected net v) nic.interfacesNum := by
  rw [← h.total v, ← sum_connected]
  exact Finset.sum_le_sum fun j _ ↦ h.receipts_le v j

theorem internal (h : Conserved net master tr s) {u : V}
    (hs : step net master s (.internal u) = some s') :
    Conserved net master (tr ++ [(s, .internal u)]) s' := by
  obtain ⟨hcall, rfl⟩ := next_internal_iff.mp hs
  obtain ⟨ho, hgot, hsent⟩ := local_internal hcall (h.orderly u) (h.got_le u)
  have hrec : ∀ v j, receipts (tr ++ [(s, Event.internal u)]) v j = receipts tr v j :=
    fun v j ↦ receipts_snoc_of_not (by simp)
  refine ⟨fun w ↦ ?_, fun w i v j hwire ↦ ?_, fun v j hwire ↦ ?_, fun v ↦ ?_, h.cmds⟩
  · by_cases hw : w = u
    · subst hw
      simpa [program] using ho
    · simpa [hw] using h.orderly w
  · rw [hrec]
    by_cases hw : w = u
    · subst hw
      have hiff := hsent i (net.lt_interfacesNum hwire) (by simp [connected, hwire])
      have hlink := h.link w i v j hwire
      simpa [program, hiff] using hlink
    · simpa [hw] using h.link w i v j hwire
  · rw [hrec]
    exact h.unwired v j hwire
  · simp only [hrec]
    by_cases hv : v = u
    · subst hv
      simpa [program, hgot] using h.total v
    · simpa [hv] using h.total v

theorem sent (h : Conserved net master tr s) {u : V}
    (hs : step net master s (.sent u) = some s') :
    Conserved net master (tr ++ [(s, .sent u)]) s' := by
  obtain ⟨i, m, hcall, rfl⟩ := next_sent_iff.mp hs
  obtain ⟨⟨rfl, hconn⟩, ho, hgot, hnot, hsent⟩ := local_sent hcall (h.orderly u)
  have hrec : ∀ v j, receipts (tr ++ [(s, Event.sent u)]) v j = receipts tr v j :=
    fun v j ↦ receipts_snoc_of_not (by simp)
  obtain ⟨⟨v₀, j₀⟩, hwire₀⟩ := Option.isSome_iff_exists.mp hconn
  rw [hwire₀]
  refine ⟨fun w ↦ ?_, fun w k v j hwire ↦ ?_, fun v j hwire ↦ ?_, fun v ↦ ?_, fun v j m hm ↦ ?_⟩
  · rw [Net.put_node]
    by_cases hw : w = u
    · subst hw
      simpa [program] using ho
    · simpa [hw] using h.orderly w
  · rw [hrec, Net.put_node, Net.put_some_chan, Net.setNode_chan]
    have hlink := h.link w k v j hwire
    by_cases hport : v = v₀ ∧ j = j₀
    · -- the link that carries the message
      obtain ⟨rfl, rfl⟩ := hport
      obtain ⟨rfl, rfl⟩ : w = u ∧ k = i := by
        have heq := (net.symm hwire).symm.trans (net.symm hwire₀)
        simpa using heq
      rw [if_neg hnot] at hlink
      have hnew := (hsent k).mpr (.inr rfl)
      simp only [and_self, if_true, List.length_append, List.length_singleton, Net.setNode_node,
        Function.update_self, program, hnew]
      omega
    · have hwk : ¬ (w = u ∧ k = i) := by
        rintro ⟨rfl, rfl⟩
        have heq := hwire.symm.trans hwire₀
        exact hport (by simpa using heq)
      rw [if_neg hport]
      by_cases hw : w = u
      · subst hw
        have hk : k ≠ i := fun hk ↦ hwk ⟨rfl, hk⟩
        have hiff : SentOn (onSent (decide (w = master)) (s.node w)) k ↔ SentOn (s.node w) k := by
          rw [hsent k]
          simp [hk]
        simpa [program, hiff] using hlink
      · simpa [hw] using hlink
  · rw [hrec, Net.put_some_chan, Net.setNode_chan]
    have hport : ¬ (v = v₀ ∧ j = j₀) := by
      rintro ⟨rfl, rfl⟩
      cases hwire.symm.trans (net.symm hwire₀)
    rw [if_neg hport]
    exact h.unwired v j hwire
  · simp only [hrec, Net.put_node]
    by_cases hv : v = u
    · subst hv
      simpa [program, hgot] using h.total v
    · simpa [hv] using h.total v
  · rw [Net.put_some_chan, Net.setNode_chan] at hm
    split at hm
    · rcases List.mem_append.mp hm with hm | hm
      · exact h.cmds _ _ m hm
      · exact List.mem_singleton.mp hm
    · exact h.cmds v j m hm

theorem received (h : Conserved net master tr s) {u : V} {i : ℕ} {m : RtCmd}
    (hs : step net master s (.received u i m) = some s') :
    Conserved net master (tr ++ [(s, .received u i m)]) s' := by
  obtain ⟨ports, q, hcall, -, hchan, rfl⟩ := next_received_iff.mp hs
  obtain rfl := h.cmds u i m (by simp [hchan])
  obtain ⟨ho, hgot, hsent⟩ := local_recv hcall (h.orderly u)
  -- the interface is connected, since something waited there
  obtain ⟨p, hwire₀⟩ : ∃ p, net.wire u i = some p := by
    cases hwire : net.wire u i with
    | none =>
        rw [(h.unwired u i hwire).2] at hchan
        cases hchan
    | some p => exact ⟨p, rfl⟩
  refine ⟨fun w ↦ ?_, fun w k v j hwire ↦ ?_, fun v j hwire ↦ ?_, fun v ↦ ?_, fun v j m hm ↦ ?_⟩
  · rw [Net.setChan_node]
    by_cases hw : w = u
    · subst hw
      simpa [program] using ho
    · simpa [hw] using h.orderly w
  · have hlink := h.link w k v j hwire
    have hiff : SentOn (((s.setNode u ((program nic (connected net u) (decide (u = master))).onRecv
        i .setRouting (s.node u))).setChan u i q).node w) k ↔ SentOn (s.node w) k := by
      by_cases hw : w = u
      · subst hw
        simpa [program] using hsent k
      · simp [hw]
    rw [receipts_snoc_received, Net.setChan_chan, Net.setNode_chan]
    simp only [hiff, ← hlink]
    by_cases hport : v = u ∧ j = i
    · obtain ⟨rfl, rfl⟩ := hport
      simp only [and_self, if_true, hchan, List.length_cons]
      omega
    · have hport' : ¬ (u = v ∧ i = j) := fun hp ↦ hport ⟨hp.1.symm, hp.2.symm⟩
      rw [if_neg hport, if_neg hport', Nat.add_zero]
  · have hport : ¬ (v = u ∧ j = i) := by
      rintro ⟨rfl, rfl⟩
      cases hwire.symm.trans hwire₀
    have hport' : ¬ (u = v ∧ i = j) := fun hp ↦ hport ⟨hp.1.symm, hp.2.symm⟩
    rw [receipts_snoc_received, Net.setChan_chan, if_neg hport, if_neg hport', Nat.add_zero]
    exact h.unwired v j hwire
  · simp only [receipts_snoc_received, Finset.sum_add_distrib, Net.setChan_node]
    rw [h.total v]
    by_cases hv : v = u
    · subst hv
      have hi : i ∈ Finset.range nic.interfacesNum :=
        Finset.mem_range.mpr (net.lt_interfacesNum hwire₀)
      simp [program, hgot, hi]
    · have hv' : ¬ u = v := fun h ↦ hv h.symm
      simp [hv, hv']
  · rw [Net.setChan_chan] at hm
    split at hm
    · rename_i hport
      exact h.cmds u i m (by rw [hchan]; exact List.mem_cons_of_mem _ hm)
    · exact h.cmds v j m hm

theorem exec (h : Exec (step net master) (init nic master nodeId mem) tr s)
    (htr : Meets (fun _ e ↦ e.Faultless) tr) : Conserved net master tr s := by
  refine h.trace_invariant (I := fun tr s ↦ Conserved net master tr s) conserved_init ?_ htr
  intro tr s e s' hinv he hs
  cases e with
  | internal u => exact hinv.internal hs
  | sent u => exact hinv.sent hs
  | received u i m => exact hinv.received hs
  | sendError u => exact he.elim
  | recvError u => exact he.elim
  | stray u i m => exact he.elim

/-! ## Progress -/

theorem chan_of_stuck (hstuck : Stuck net master s) {w : V}
    (hcall : call nic (connected net w) (s.node w) = .recv fun _ ↦ true) (j : ℕ) :
    s.chan w j = [] := by
  cases hchan : s.chan w j with
  | nil => rfl
  | cons m q =>
      exact absurd (next_received_iff.mpr ⟨_, q, hcall, rfl, hchan, rfl⟩)
        (hstuck (.received w j m) _ trivial)

theorem pc_of_stuck (hstuck : Stuck net master s) (w : V) :
    (∃ ret, (s.node w).pc = .returned ret) ∨
      call nic (connected net w) (s.node w) = .recv fun _ ↦ true := by
  have hinternal : call nic (connected net w) (s.node w) ≠ .internal := fun hcall ↦
    hstuck (.internal w) _ trivial (next_internal_iff.mpr ⟨hcall, rfl⟩)
  have hsend : ∀ i m, call nic (connected net w) (s.node w) ≠ .send i m := fun i m hcall ↦
    hstuck (.sent w) _ trivial (next_sent_iff.mpr ⟨i, m, hcall, rfl⟩)
  cases hpc : (s.node w).pc with
  | waitFirst => exact .inr (by simp [call, hpc])
  | sending i =>
      by_cases hcond : i < nic.interfacesNum ∧ connected net w i = true
      · exact absurd (by simp only [call, hpc, hcond, and_self, if_true]) (hsend i .setRouting)
      · exact absurd (by simp only [call, hpc, hcond, if_false]) hinternal
  | masterReceiving i =>
      by_cases hcond : i < nic.interfacesNum ∧ connected net w i = true
      · exact .inr (by simp only [call, hpc, hcond, and_self, if_true])
      · exact absurd (by simp only [call, hpc, hcond, if_false]) hinternal
  | slaveReceiving =>
      by_cases hcond : 1 < (s.node w).mem.numInterface
      · exact .inr (by simp only [call, hpc, hcond, if_true])
      · exact absurd (by simp only [call, hpc, hcond, if_false]) hinternal
  | returned ret => exact .inl ⟨ret, rfl⟩

/-- When nothing can happen, a board that has begun has sent over all its links. -/
theorem sentOn_of_stuck (hstuck : Stuck net master s) {w : V} (hw : (s.node w).pc ≠ .waitFirst)
    (i : ℕ) : SentOn (s.node w) i := by
  rcases pc_of_stuck hstuck w with ⟨ret, hpc⟩ | hcall
  · simp [SentOn, hpc]
  · cases hpc : (s.node w).pc with
    | waitFirst => exact absurd hpc hw
    | sending k =>
        simp only [call, hpc] at hcall
        split at hcall <;> cases hcall
    | _ => simp [SentOn, hpc]

/-- A board that waits in the receive loops has not yet heard from all its links. -/
theorem got_lt_of_recv (h : Conserved net master tr s) {w : V}
    (hcall : call nic (connected net w) (s.node w) = .recv fun _ ↦ true)
    (hfirst : (s.node w).pc ≠ .waitFirst) :
    got nic (connected net w) (w = master) (s.node w) <
      below (connected net w) nic.interfacesNum := by
  have ho := h.orderly w
  have hnode : s.node w = ⟨(s.node w).pc, (s.node w).mem⟩ := rfl
  rw [hnode] at hcall ho ⊢
  cases hpc : (s.node w).pc with
  | waitFirst => exact absurd hpc hfirst
  | sending i =>
      simp only [hpc, call] at hcall
      split at hcall <;> cases hcall
  | masterReceiving k =>
      have hcond : k < nic.interfacesNum ∧ connected net w k = true := by
        by_contra hnot
        simp [call, hpc, hnot] at hcall
      have hmono := below_mono (c := connected net w) (Nat.succ_le_of_lt hcond.1)
      rw [Nat.succ_eq_add_one, below_succ_of_connected hcond.2] at hmono
      simp only [got]
      omega
  | slaveReceiving =>
      have hlt : 1 < (s.node w).mem.numInterface := by
        by_contra hnot
        simp [call, hpc, hnot] at hcall
      rw [hpc] at ho
      obtain ⟨-, -, -, hnum⟩ := ho
      change (s.node w).mem.numInterface ≤ _ at hnum
      simp only [got]
      omega
  | returned ret => simp [call, hpc] at hcall

/-- When nothing can happen, the flood has reached every board. -/
theorem started_of_stuck (h : Conserved net master tr s) (hstuck : Stuck net master s) (w : V) :
    (s.node w).pc ≠ .waitFirst := by
  refine net.mem_of_closed (P := fun w ↦ (s.node w).pc ≠ .waitFirst) (u := master) ?_ ?_ w
  · intro hpc
    have ho := h.orderly master
    simp only [Orderly, hpc] at ho
    simp at ho
  · intro x i y j hx hwire hy
    have hlink := h.link x i y j hwire
    rw [if_pos (sentOn_of_stuck hstuck hx i), chan_of_stuck hstuck (by simp [call, hy]) j,
      List.length_nil] at hlink
    -- but a board that waits for its first message has read none
    have htotal := h.total y
    have hj : j ∈ Finset.range nic.interfacesNum :=
      Finset.mem_range.mpr (net.lt_interfacesNum (net.symm hwire))
    have hle := Finset.single_le_sum (f := fun j ↦ receipts tr y j) (fun _ _ ↦ Nat.zero_le _) hj
    simp only [got, hy] at htotal
    omega

theorem returned_of_stuck (h : Conserved net master tr s) (hstuck : Stuck net master s) (w : V) :
    (s.node w).pc = .returned .ok := by
  rcases pc_of_stuck hstuck w with ⟨ret, hpc⟩ | hcall
  · have ho := h.orderly w
    simp only [Orderly, hpc] at ho
    rw [hpc, ho.1]
  · exfalso
    have hlt := h.got_lt_of_recv hcall (h.started_of_stuck hstuck w)
    rw [← h.total w, ← sum_connected] at hlt
    refine absurd hlt (not_lt.mpr (Finset.sum_le_sum fun j _ ↦ ?_))
    split
    · rename_i hconn
      obtain ⟨⟨x, i⟩, hwire⟩ := Option.isSome_iff_exists.mp hconn
      have hlink := h.link x i w j (net.symm hwire)
      have hsent := sentOn_of_stuck hstuck (h.started_of_stuck hstuck x) i
      rw [if_pos hsent, chan_of_stuck hstuck hcall j, List.length_nil] at hlink
      exact hlink.ge
    · exact Nat.zero_le _

/-- A board that has returned has read one message from each of its links. -/
theorem receipts_of_returned (h : Conserved net master tr s) {w : V}
    (hret : (s.node w).pc = .returned .ok) (j : ℕ) :
    receipts tr w j = if connected net w j = true then 1 else 0 := by
  have htotal := h.total w
  simp only [got, hret] at htotal
  rw [← sum_connected] at htotal
  by_cases hj : j ∈ Finset.range nic.interfacesNum
  · exact (Finset.sum_eq_sum_iff_of_le fun j _ ↦ h.receipts_le w j).mp htotal j hj
  · have hnone : net.wire w j = none := by
      by_contra hsome
      obtain ⟨p, hp⟩ := Option.ne_none_iff_exists'.mp hsome
      exact hj (Finset.mem_range.mpr (net.lt_interfacesNum hp))
    rw [(h.unwired w j hnone).1]
    simp [connected, hnone]

theorem lt_of_received (h : Conserved net master tr s) (hs : step net master s e = some s')
    (u : V) (i : ℕ) (m : RtCmd) (he : e = .received u i m) : i < nic.interfacesNum := by
  subst he
  obtain ⟨_, q, -, -, hchan, -⟩ := next_received_iff.mp hs
  cases hwire : net.wire u i with
  | none =>
      rw [(h.unwired u i hwire).2] at hchan
      cases hchan
  | some p => exact net.lt_interfacesNum hwire

theorem receipts_of_writes (h : Conserved net master tr s) {w : V} (hw : w ≠ master)
    (hwrites : 0 < (s.node w).mem.writes) : ∃ j, 0 < receipts tr w j := by
  have hpos : 0 < got nic (connected net w) (w = master) (s.node w) := by
    have ho := h.orderly w
    cases hpc : (s.node w).pc with
    | waitFirst =>
        simp only [Orderly, hpc] at ho
        omega
    | sending k => simp [got, hpc, hw]
    | masterReceiving k => simp [Orderly, hpc, hw] at ho
    | slaveReceiving =>
        simp only [Orderly, hpc] at ho
        simp only [got, hpc]
        omega
    | returned ret =>
        obtain ⟨i, p, hwire⟩ := net.exists_wire hw.symm
        have hmem : i ∈ (Finset.range nic.interfacesNum).filter fun i ↦
            connected net w i = true :=
          Finset.mem_filter.mpr ⟨Finset.mem_range.mpr (net.lt_interfacesNum hwire),
            by simp [connected, hwire]⟩
        simp only [got, hpc, below]
        exact Finset.card_pos.mpr ⟨i, hmem⟩
  rw [← h.total w] at hpos
  obtain ⟨j, -, hj⟩ := Finset.exists_ne_zero_of_sum_ne_zero hpos.ne'
  exact ⟨j, Nat.pos_of_ne_zero hj⟩

theorem chan_of_returned (h : Conserved net master tr s)
    (hall : ∀ w, (s.node w).pc = .returned .ok) (w : V) (j : ℕ) : s.chan w j = [] := by
  cases hwire : net.wire w j with
  | none => exact (h.unwired w j hwire).2
  | some p =>
      obtain ⟨x, i⟩ := p
      have hrec := h.receipts_of_returned (hall w) j
      have hlink := h.link x i w j (net.symm hwire)
      have hsent : SentOn (s.node x) i := by simp [SentOn, hall x]
      have hconn : connected net w j = true := by simp [connected, hwire]
      rw [if_pos hconn] at hrec
      rw [if_pos hsent, hrec] at hlink
      exact List.length_eq_zero_iff.mp (by omega)

end Conserved

/-! ## Every flood ends -/

section Weight

/-- A bound for the calls a board has yet to make. -/
def nodeRank (nic : NicLimits) (n : Node) : ℕ :=
  match n.pc with
  | .waitFirst => 4 * nic.interfacesNum + n.mem.numInterface + 4
  | .sending i => 3 * (nic.interfacesNum - i) + n.mem.numInterface + nic.interfacesNum + 3
  | .masterReceiving i => nic.interfacesNum - i + 1
  | .slaveReceiving => n.mem.numInterface + 1
  | .returned _ => 0

theorem nodeRank_onInternal (c : ℕ → Bool) (b : Bool) (n : Node)
    (hcall : call nic c n = .internal) : nodeRank nic (onInternal nic b n) < nodeRank nic n := by
  obtain ⟨pc, m⟩ := n
  cases pc with
  | waitFirst => simp [call] at hcall
  | sending i =>
      by_cases hi : i < nic.interfacesNum
      · simp only [onInternal, hi, if_true, nodeRank]
        omega
      · cases b <;> simp [onInternal, hi, nodeRank] <;> omega
  | masterReceiving i =>
      by_cases hi : i < nic.interfacesNum
      · simp only [onInternal, hi, if_true, nodeRank]
        omega
      · simp [onInternal, hi, nodeRank]
  | slaveReceiving => simp [onInternal, nodeRank]
  | returned ret => simp [call] at hcall

theorem nodeRank_onSent (c : ℕ → Bool) (b : Bool) (n : Node) (i : ℕ) (cmd : RtCmd)
    (hcall : call nic c n = .send i cmd) : nodeRank nic (onSent b n) + 1 < nodeRank nic n := by
  obtain ⟨pc, m⟩ := n
  cases pc with
  | sending k =>
      have hk : k < nic.interfacesNum := by
        by_contra hk
        simp [call, hk] at hcall
      cases b <;> simp [onSent, nodeRank] <;> omega
  | waitFirst => simp [call] at hcall
  | masterReceiving k =>
      simp only [call] at hcall
      split at hcall <;> cases hcall
  | slaveReceiving =>
      simp only [call] at hcall
      split at hcall <;> cases hcall
  | returned ret => simp [call] at hcall

theorem nodeRank_onRecv (c : ℕ → Bool) (n : Node) (ports : ℕ → Bool) (cmd : RtCmd)
    (hcall : call nic c n = .recv ports) :
    nodeRank nic (onRecv nic cmd n) < nodeRank nic n + 1 := by
  obtain ⟨pc, m⟩ := n
  cases pc with
  | waitFirst =>
      by_cases hcmd : cmd = .setRouting
      · simp only [onRecv, hcmd, if_true, nodeRank, axiomWriteRoutingTable]
        omega
      · simp [onRecv, hcmd, nodeRank]
  | masterReceiving k =>
      simp only [onRecv, nodeRank]
      omega
  | slaveReceiving =>
      simp only [onRecv, nodeRank]
      omega
  | sending k =>
      simp only [call] at hcall
      split at hcall <;> cases hcall
  | returned ret => simp [call] at hcall

variable [Fintype V]

def weight (nic : NicLimits) (s : State V) : ℕ :=
  s.weight (fun _ ↦ nodeRank nic) (fun _ ↦ 1) (Finset.range nic.interfacesNum)

theorem step_weight_lt (he : e.Faultless)
    (hport : ∀ u i m, e = .received u i m → i < nic.interfacesNum)
    (hs : step net master s e = some s') : weight nic s' < weight nic s :=
  next_weight_lt (fun _ n ↦ nodeRank_onInternal _ _ n) (fun _ n i m ↦ nodeRank_onSent _ _ n i m)
    (fun _ n P _ m ↦ nodeRank_onRecv _ n P m) he
    (fun u i m h ↦ Finset.mem_range.mpr (hport u i m h)) hs

/-- Some fault-free flood goes on until all boards have returned. -/
theorem exists_complete_flood (net : Network nic V) (master : V) (nodeId : V → ℕ) (mem : V → Mem) :
    ∃ tr s, Exec (step net master) (init nic master nodeId mem) tr s ∧
      Meets (fun _ e ↦ e.Faultless) tr ∧ ∀ w, (s.node w).pc = .returned .ok := by
  have hdec : ∀ (s : State V) e s', (Event.Faultless e ∧
      ∀ u i m, e = .received u i m → i < nic.interfacesNum) →
        step net master s e = some s' → weight nic s' < weight nic s :=
    fun _ _ _ hC hs ↦ step_weight_lt hC.1 hC.2 hs
  obtain ⟨tr, s, hexec, hmeets, hmax⟩ :=
    Exec.exists_maximal (weight nic) hdec (init nic master nodeId mem)
  have hfree := hmeets.mono fun _ _ h ↦ h.1
  have hinv := Conserved.exec hexec hfree
  refine ⟨tr, s, hexec, hfree, hinv.returned_of_stuck fun e s' he hs ↦ ?_⟩
  exact hmax e s' ⟨he, hinv.lt_of_received hs⟩ hs

end Weight

/-- In every state of a fault-free flood some board can go on unless all have returned;
boards write their tables once, slaves not before a message has reached them; those
that have returned have read one message from every link; and when all have, none is
left. -/
theorem flood_completes (net : Network nic V) (master : V) (nodeId : V → ℕ) (mem : V → Mem)
    (h : Exec (step net master) (init nic master nodeId mem) tr s)
    (hfree : Meets (fun _ e ↦ e.Faultless) tr) :
    ((∀ w, (s.node w).pc = .returned .ok) ∨
        ∃ e s', e.Faultless ∧ step net master s e = some s') ∧
      (∀ w, (s.node w).mem.writes ≤ 1 ∧
        (∀ ret, (s.node w).pc = .returned ret → (s.node w).mem.writes = 1) ∧
        (w ≠ master → 0 < (s.node w).mem.writes → ∃ j, 0 < receipts tr w j)) ∧
      (∀ w ret, (s.node w).pc = .returned ret → ret = .ok ∧
        ∀ j, receipts tr w j = if connected net w j = true then 1 else 0) ∧
      ((∀ w, ∃ ret, (s.node w).pc = .returned ret) → ∀ w j, s.chan w j = []) := by
  have hinv := Conserved.exec h hfree
  have hok : ∀ w ret, (s.node w).pc = .returned ret → ret = .ok ∧ (s.node w).mem.writes = 1 := by
    intro w ret hpc
    have ho := hinv.orderly w
    simpa only [Orderly, hpc] using ho
  refine ⟨?_, fun w ↦ ⟨?_, fun ret hpc ↦ (hok w ret hpc).2, fun hw ↦ hinv.receipts_of_writes hw⟩,
    fun w ret hpc ↦ ⟨(hok w ret hpc).1, fun j ↦ ?_⟩, fun hall ↦ hinv.chan_of_returned ?_⟩
  · by_cases hstuck : Stuck net master s
    · exact .inl (hinv.returned_of_stuck hstuck)
    · simp only [Stuck, not_forall, not_not] at hstuck
      obtain ⟨e, s', he, hs⟩ := hstuck
      exact .inr ⟨e, s', he, hs⟩
  · have ho := hinv.orderly w
    cases hpc : (s.node w).pc <;> simp only [Orderly, hpc] at ho <;> omega
  · obtain ⟨rfl, -⟩ := hok w ret hpc
    exact hinv.receipts_of_returned hpc j
  · intro w
    obtain ⟨ret, hpc⟩ := hall w
    obtain ⟨rfl, -⟩ := hok w ret hpc
    exact hpc

theorem flood_completes_chain :
    ∃ tr s, Exec (step (chain 2) 0) (init fourIfNic 0 (fun w ↦ w.val)
        fun _ ↦ ⟨fun _ ↦ 0, fun _ ↦ 0, 0, 0⟩) tr s ∧ Meets (fun _ e ↦ e.Faultless) tr ∧
      (∀ w, (s.node w).mem.writes = 1) ∧ receipts tr 1 0 = 1 ∧ receipts tr 1 1 = 1 ∧
      ∀ w j, s.chan w j = [] := by
  obtain ⟨tr, s, hexec, hfree, hall⟩ := exists_complete_flood (chain 2) 0 (fun w ↦ w.val)
    fun _ ↦ ⟨fun _ ↦ 0, fun _ ↦ 0, 0, 0⟩
  obtain ⟨-, hwrites, hreturned, hempty⟩ := flood_completes (chain 2) 0 _ _ hexec hfree
  refine ⟨tr, s, hexec, hfree, fun w ↦ (hwrites w).2.1 _ (hall w), ?_, ?_,
    hempty fun w ↦ ⟨_, hall w⟩⟩
  · exact (hreturned 1 _ (hall 1)).2 0
  · exact (hreturned 1 _ (hall 1)).2 1

end AxiomApps.SetRouting
