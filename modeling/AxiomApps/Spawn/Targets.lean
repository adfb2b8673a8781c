import AxiomApps.Spawn.Execvpe

/-!
# The targets of remote execution

`axinit_execvpe` starts a program on one node or, with `AXINIT_EXEC_BROADCAST`, on node after
node; `AXINIT_EXEC_NOSELF` leaves the caller's own node out. The loop tests its condition after
each turn, also after one that `continue` cut short.

No send or receive fails here.
-/

namespace AxiomApps.Spawn

/-- What `axiom_get_node_id` and `axiom_get_num_nodes` return in a network with the ids 1 to
`numNodes`. -/
structure Network where
  nodeId : UInt8
  numNodes : ℕ
  numNodes_le : numNodes ≤ 255
  nodeId_pos : 0 < nodeId.toNat
  nodeId_le : nodeId.toNat ≤ numNodes

def axinitExecBroadcast : BitVec 32 := 1
def axinitExecNoself : BitVec 32 := 2

def broadcast (flags : BitVec 32) : Bool := flags &&& axinitExecBroadcast != 0
def noself (flags : BitVec 32) : Bool := flags &&& axinitExecNoself != 0

/-- A turn that `continue` cuts short. -/
def skips (net : Network) (flags : BitVec 32) (node : UInt8) : Bool :=
  noself flags && node == net.nodeId

/-- The nodes the program was started on, with the messages sent there, and `start_counter`. -/
structure Started where
  sent : List (UInt8 × List SpawnReq)
  startCounter : ℕ
  deriving DecidableEq

/-- What a turn of the loop adds. -/
def Started.turn (net : Network) (flags : BitVec 32) (messages : UInt8 → List SpawnReq)
    (st : Started) (node : UInt8) : Started :=
  if skips net flags node then st
  else ⟨st.sent ++ [(node, messages node)], st.startCounter + 1⟩

/-- The loop, none if it makes more than `fuel` turns. A turn that is cut short goes on to the
condition; one that is not ends the loop unless the program is broadcast. -/
def execLoop (net : Network) (flags : BitVec 32) (messages : UInt8 → List SpawnReq) :
    ℕ → UInt8 → Started → Option Started
  | 0, _, _ => none
  | fuel + 1, node, st =>
      let st := st.turn net flags messages node
      if !skips net flags node && !broadcast flags then some st
      else if (node + 1).toNat < net.numNodes then execLoop net flags messages fuel (node + 1) st
      else some st

/-- `axinit_execvpe`. The sessions are what the nodes reply, `buf` is what the packet buffer
holds then. A loop of more turns than there are node ids would not end. -/
def axinitExecvpe (p : Platform) (net : Network) (node : UInt8) (flags : BitVec 32)
    (cmd : Command) (session : UInt8 → UInt8) (buf : UInt8 → List UInt8) : Option Started :=
  execLoop net flags (fun node ↦ execMessages p (session node) cmd (buf node)) 256
    (if broadcast flags then 0 else node) ⟨[], 0⟩

/-- The nodes a call is for. -/
def Target (net : Network) (flags : BitVec 32) (node x : UInt8) : Prop :=
  (if broadcast flags then 1 ≤ x.toNat ∧ x.toNat ≤ net.numNodes else x = node) ∧
    ¬ (noself flags = true ∧ x = net.nodeId)

/-- The program is started once on each target and nowhere else, with the command's messages,
and the number of targets is returned. -/
def RightTargets (p : Platform) (net : Network) (node : UInt8) (flags : BitVec 32)
    (cmd : Command) (session : UInt8 → UInt8) (buf : UInt8 → List UInt8) : Prop :=
  ∃ st, axinitExecvpe p net node flags cmd session buf = some st ∧
    (st.sent.map Prod.fst).Nodup ∧ (∀ x, x ∈ st.sent.map Prod.fst ↔ Target net flags node x) ∧
    (∀ m ∈ st.sent, m.2 = execMessages p (session m.1) cmd (buf m.1)) ∧
    st.startCounter = {x | Target net flags node x}.ncard

variable {net : Network} {flags : BitVec 32} {messages : UInt8 → List SpawnReq}

/-! ## The loop -/

theorem ofNat_add_one {k : ℕ} (h : k + 1 < 256) : UInt8.ofNat k + 1 = UInt8.ofNat (k + 1) := by
  have hk : k < 256 := by omega
  apply UInt8.toNat_inj.mp
  rw [UInt8.toNat_add, UInt8.toNat_ofNat_of_lt' hk, UInt8.toNat_ofNat_of_lt' h]
  exact Nat.mod_eq_of_lt h

/-- A broadcast from node `k` on makes a turn at each of the `n + 1` nodes below the number of
nodes. -/
theorem execLoop_broadcast (hb : broadcast flags = true) {n k fuel : ℕ}
    (hk : k + (n + 1) = net.numNodes) (hfuel : n < fuel) (st : Started) :
    execLoop net flags messages fuel (UInt8.ofNat k) st =
      some (((List.range' k (n + 1)).map UInt8.ofNat).foldl
        (Started.turn net flags messages) st) := by
  have hmax := net.numNodes_le
  have hstep : UInt8.ofNat k + 1 = UInt8.ofNat (k + 1) := ofNat_add_one (by omega)
  have hnode : (UInt8.ofNat (k + 1)).toNat = k + 1 := by
    have hlt : k + 1 < 256 := by omega
    exact UInt8.toNat_ofNat_of_lt' hlt
  induction n generalizing k fuel st with
  | zero =>
      obtain ⟨fuel, rfl⟩ := Nat.exists_eq_succ_of_ne_zero (Nat.ne_of_gt hfuel)
      rw [execLoop, hstep, hnode, if_neg (by simp [hb]), if_neg (by omega)]
      rfl
  | succ n ih =>
      obtain ⟨fuel, rfl⟩ := Nat.exists_eq_succ_of_ne_zero (Nat.ne_of_gt (Nat.zero_lt_of_lt hfuel))
      have hlt : k + 1 + 1 < 256 := by omega
      rw [execLoop, hstep, hnode, if_neg (by simp [hb]), if_pos (by omega),
        ih (by omega) (by omega) _ (ofNat_add_one hlt) (UInt8.toNat_ofNat_of_lt' hlt)]
      rfl

theorem skips_eq_true_iff {node : UInt8} :
    skips net flags node = true ↔ noself flags = true ∧ node = net.nodeId := by
  simp [skips]

theorem skips_add_one {node : UInt8} (h : skips net flags node = true) :
    skips net flags (node + 1) = false := by
  obtain ⟨-, hself⟩ := skips_eq_true_iff.mp h
  simp [skips, ← hself]

/-- Without broadcast the loop ends with the first node that is not left out. -/
theorem execLoop_single (hb : broadcast flags = false) (fuel : ℕ) (node : UInt8) (st : Started) :
    execLoop net flags messages (fuel + 2) node st =
      some (if skips net flags node = true ∧ (node + 1).toNat < net.numNodes then
          st.turn net flags messages (node + 1)
        else st.turn net flags messages node) := by
  cases hskip : skips net flags node with
  | false => simp [execLoop, hb, hskip]
  | true =>
      have hnext := skips_add_one hskip
      have hsame : st.turn net flags messages node = st := if_pos hskip
      by_cases hcond : (node + 1).toNat < net.numNodes
      · rw [execLoop, hsame, if_neg (by simp [hskip]), if_pos hcond, execLoop,
          if_pos (by simp [hnext, hb]), if_pos ⟨rfl, hcond⟩]
      · rw [execLoop, hsame, if_neg (by simp [hskip]), if_neg hcond, if_neg fun h ↦ hcond h.2]

theorem sent_foldl_turn (xs : List UInt8) (st : Started) :
    (xs.foldl (Started.turn net flags messages) st).sent =
      st.sent ++ (xs.filter fun x ↦ !skips net flags x).map fun x ↦ (x, messages x) := by
  induction xs generalizing st with
  | nil => simp
  | cons x xs ih =>
      rw [List.foldl_cons, ih, Started.turn]
      cases hskip : skips net flags x <;> simp [hskip]

/-! ## The targets -/

theorem ncard_eq_length {l : List UInt8} (hl : l.Nodup) {P : UInt8 → Prop}
    (h : ∀ x, x ∈ l ↔ P x) : {x | P x}.ncard = l.length := by
  have hset : {x | P x} = ↑l.toFinset := by
    ext x
    simp [h]
  rw [hset, Set.ncard_coe_finset, List.toFinset_card_of_nodup hl]

section Calls

variable {p : Platform} {node : UInt8} {cmd : Command} {session : UInt8 → UInt8}
  {buf : UInt8 → List UInt8}

/-- A broadcast begins with node 0, which is no node's id. -/
theorem not_rightTargets_of_broadcast (hb : broadcast flags = true) :
    ¬ RightTargets p net node flags cmd session buf := by
  have hpos := net.nodeId_pos.trans_le net.nodeId_le
  have hmax := net.numNodes_le
  obtain ⟨n, hn⟩ : ∃ n, 0 + (n + 1) = net.numNodes := ⟨net.numNodes - 1, by omega⟩
  have hzero : skips net flags 0 = false := by
    refine Bool.eq_false_iff.mpr fun hskip ↦ ?_
    have hid := net.nodeId_pos
    rw [← (skips_eq_true_iff.mp hskip).2] at hid
    exact absurd hid (by decide)
  rintro ⟨st, hrun, -, hmem, -⟩
  rw [axinitExecvpe, if_pos hb] at hrun
  obtain rfl := Option.some.inj ((execLoop_broadcast (k := 0) hb hn (by omega) _).symm.trans hrun)
  have hstarted : Target net flags node 0 := by
    refine (hmem 0).mp ?_
    rw [sent_foldl_turn]
    simp [List.range'_succ, hzero]
  simp [Target, hb] at hstarted

theorem target_iff (hb : broadcast flags = false) (x : UInt8) :
    Target net flags node x ↔ x = node ∧ skips net flags node = false := by
  rw [Target, hb, ← Bool.not_eq_true, skips_eq_true_iff]
  constructor
  · rintro ⟨rfl, hself⟩
    exact ⟨rfl, hself⟩
  · rintro ⟨rfl, hself⟩
    exact ⟨rfl, hself⟩

/-- A call for one node goes to it, or to the node after it if it is to be left out. -/
theorem rightTargets_single_iff (hb : broadcast flags = false) :
    RightTargets p net node flags cmd session buf ↔
      ¬ (skips net flags node = true ∧ (node + 1).toNat < net.numNodes) := by
  simp only [RightTargets, axinitExecvpe, hb, Bool.false_eq_true, if_false, execLoop_single hb,
    Option.some.injEq, exists_eq_left']
  by_cases hbad : skips net flags node = true ∧ (node + 1).toNat < net.numNodes
  · refine iff_of_false ?_ (not_not.mpr hbad)
    rintro ⟨-, hmem, -⟩
    have hstarted : Target net flags node (node + 1) := by
      refine (hmem (node + 1)).mp ?_
      rw [if_pos hbad]
      simp [Started.turn, skips_add_one hbad.1]
    simp [target_iff hb, hbad.1] at hstarted
  · refine iff_of_true ?_ hbad
    rw [if_neg hbad, Started.turn]
    have hcount := fun l hl hmem ↦ ncard_eq_length (l := l) hl (P := Target net flags node) hmem
    cases hskip : skips net flags node with
    | false =>
        have hmem : ∀ x, x ∈ [node] ↔ Target net flags node x := by
          intro x
          simp [target_iff hb, hskip]
        exact ⟨by simp, hmem, by simp, (hcount [node] (by simp) hmem).symm⟩
    | true =>
        have hmem : ∀ x, x ∈ [] ↔ Target net flags node x := by
          intro x
          simp [target_iff hb, hskip]
        exact ⟨by simp, hmem, by simp, (hcount [] (by simp) hmem).symm⟩

end Calls

/-- The network as its first node sees it. -/
def firstOf (numNodes : ℕ) (hpos : 1 ≤ numNodes) (hle : numNodes ≤ 255) : Network :=
  ⟨1, numNodes, hle, Nat.one_pos, hpos⟩

/-- Node 1 asks for a program to be run on node 1 unless that is the caller. It is started on
node 2. -/
example :
    (axinitExecvpe platform8 (firstOf 3 (by decide) (by decide)) 1 axinitExecNoself shortCommand
      (fun _ ↦ 0) fun _ ↦ []).map (fun st ↦ (st.sent.map Prod.fst, st.startCounter)) =
    some ([2], 1) := by
  decide +kernel

end AxiomApps.Spawn
