import AxiomApps.Lib.Execution
import AxiomApps.Lib.Forwarding
import AxiomApps.Lib.Mail

/-!
# axiom-traceroute

The client sends a message to the next hop on the way to the destination. Each node the
message comes to replies to the client and, unless it is the destination, passes the message
on with a greater step. The client counts replies. How many there are it learns from the
destination, whose reply may come before those of nearer nodes.

Replies in flight may arrive in any order.
-/

namespace AxiomApps.Traceroute

open EventSystem Forwarding

/-- `AXIOM_CMD_TRACEROUTE` and `AXIOM_CMD_TRACEROUTE_REPLY`. -/
inductive Command
  | traceroute
  | tracerouteReply
  | other
  deriving DecidableEq, Repr

/-- `axiom_traceroute_payload_t`; the step is an 8-bit value. -/
structure Payload (V : Type*) where
  command : Command
  srcId : V
  dstId : V
  step : ℕ
  deriving DecidableEq, Repr

/-- A message addressed to a node. -/
structure Reply (V : Type*) where
  dst : V
  src : V
  payload : Payload V
  deriving DecidableEq, Repr

/-- What `axiom_next_hop` finds in the routing table of each node, and the cables. -/
structure Network (V I : Type*) where
  nextHop : V → V → Option I
  links : V → I → Option V

/-- Where the client's loop is. -/
inductive Phase
  | receiving
  | reported (hops : ℕ)
  | failed
  deriving DecidableEq, Repr

/-- The client's counters and what it has printed: nodes, each with its step. -/
structure Client (V : Type*) where
  receivedReply : ℕ
  expectedReply : ℕ
  printed : List (V × ℕ)
  phase : Phase
  deriving DecidableEq, Repr

/-- The messages in flight, those to a neighbour's axiom-init with that neighbour. -/
structure State (V : Type*) where
  requests : List (V × Payload V)
  replies : List (Reply V)
  client : Client V

/-- A message in flight arrives. -/
inductive Event
  | request (i : ℕ)
  | reply (i : ℕ)
  deriving DecidableEq, Repr

variable {V I : Type*} [DecidableEq V]

def Network.hop (net : Network V I) (dest x : V) : Option V :=
  (net.nextHop x dest).bind (net.links x)

/-- The handler of axiom-init: the reply it sends and the message it passes on. -/
def axiomTracerouteReply (net : Network V I) (nodeId : V) (payload : Payload V) :
    List (Reply V) × List (V × Payload V) :=
  if payload.command ≠ .traceroute then ([], [])
  else
    let sendPayload := { payload with step := (payload.step + 1) % 256 }
    ([⟨payload.srcId, nodeId, { sendPayload with command := .tracerouteReply }⟩],
      if nodeId ≠ payload.dstId then
        (net.hop payload.dstId nodeId).toList.map fun y ↦ (y, sendPayload)
      else [])

/-- One turn of the client's loop. -/
def Client.receive (c : Client V) (destNode recvNode : V) (payload : Payload V) : Client V :=
  if payload.command ≠ .tracerouteReply then { c with phase := .failed }
  else
    let receivedReply := (c.receivedReply + 1) % 256
    let expectedReply := if recvNode = destNode then payload.step else c.expectedReply
    { receivedReply := receivedReply
      expectedReply := expectedReply
      printed := c.printed ++ [(recvNode, payload.step)]
      phase := if receivedReply < expectedReply then .receiving else .reported receivedReply }

section System

variable (net : Network V I) (nodeId destNode : V)

/-- The client up to its loop, unless it finds no route. -/
def start (nodesMax : ℕ) : Option (State V) :=
  (net.nextHop nodeId destNode).map fun ifId ↦
    { requests := (net.links nodeId ifId).toList.map fun y ↦
        (y, ⟨.traceroute, nodeId, destNode, 0⟩)
      replies := []
      client := ⟨0, nodesMax % 256, [], .receiving⟩ }

def next (s : State V) : Event → Option (State V)
  | .request i =>
      match s.requests[i]? with
      | none => none
      | some (x, payload) =>
          let out := axiomTracerouteReply net x payload
          some { s with requests := s.requests.eraseIdx i ++ out.2, replies := s.replies ++ out.1 }
  | .reply i =>
      match s.client.phase, s.replies[i]? with
      | .receiving, some r =>
          if r.dst = nodeId then
            some { s with replies := s.replies.eraseIdx i
                          client := s.client.receive destNode r.src r.payload }
          else none
      | _, _ => none

end System

/-! ## The invariant -/

/-- What a reply tells the client. -/
def Reply.line (r : Reply V) : V × ℕ := (r.src, r.payload.step)

/-- The nodes `handled` of the path have replied and the message is on its way to the first
node of `rest`. -/
structure Progress (net : Network V I) (nodeId destNode : V) (nodesMax : ℕ)
    (handled rest : List V) (s : State V) : Prop where
  requests : s.requests =
    rest.head?.toList.map fun x ↦ (x, ⟨.traceroute, nodeId, destNode, handled.length⟩)
  onward : rest = [] ∨ Leads (net.hop destNode) destNode rest
  replies : ∀ r ∈ s.replies, r.dst = nodeId ∧ r.payload.command = .tracerouteReply
  lines : (s.client.printed ++ s.replies.map Reply.line).Perm (handled.zipIdx 1)
  received : s.client.receivedReply = s.client.printed.length
  expected : s.client.expectedReply =
    if (destNode, (handled ++ rest).length) ∈ s.client.printed then (handled ++ rest).length
    else nodesMax
  phase : s.client.phase = if s.client.receivedReply < s.client.expectedReply then .receiving
    else .reported s.client.receivedReply

section Steps

variable {net : Network V I} {nodeId destNode : V} {nodesMax : ℕ} {handled rest : List V}
  {s s' : State V}

/-- What a step can do. -/
theorem next_cases {e : Event} (h : next net nodeId destNode s e = some s') :
    (∃ i x payload, e = .request i ∧ s.requests[i]? = some (x, payload) ∧
      s' = { s with requests := s.requests.eraseIdx i ++ (axiomTracerouteReply net x payload).2
                    replies := s.replies ++ (axiomTracerouteReply net x payload).1 }) ∨
    (∃ i r, e = .reply i ∧ s.client.phase = .receiving ∧ s.replies[i]? = some r ∧
      r.dst = nodeId ∧
      s' = { s with replies := s.replies.eraseIdx i
                    client := s.client.receive destNode r.src r.payload }) := by
  cases e with
  | request i =>
      simp only [next] at h
      split at h
      · cases h
      · next x payload hi => exact .inl ⟨i, x, payload, rfl, hi, (Option.some.inj h).symm⟩
  | reply i =>
      simp only [next] at h
      split at h
      · next r hphase hi =>
          split_ifs at h with hdst
          exact .inr ⟨i, r, rfl, hphase, hi, hdst, (Option.some.inj h).symm⟩
      · cases h

theorem Progress.length_printed (h : Progress net nodeId destNode nodesMax handled rest s) :
    s.client.printed.length + s.replies.length = handled.length := by
  simpa using h.lines.length_eq

/-- A node handles the message: it replies and, unless it is the destination, the message
goes on to the next node of the path. -/
theorem Progress.request (h : Progress net nodeId destNode nodesMax handled rest s)
    (hlen : (handled ++ rest).length ≤ 255) {i : ℕ} {x : V} {payload : Payload V}
    (hi : s.requests[i]? = some (x, payload)) :
    ∃ rest', rest = x :: rest' ∧ Progress net nodeId destNode nodesMax (handled ++ [x]) rest'
      { s with requests := s.requests.eraseIdx i ++ (axiomTracerouteReply net x payload).2
               replies := s.replies ++ (axiomTracerouteReply net x payload).1 } := by
  cases rest with
  | nil =>
      rw [h.requests] at hi
      simp at hi
  | cons y rest =>
      obtain ⟨rfl, rfl, rfl⟩ : i = 0 ∧ y = x ∧
          (⟨.traceroute, nodeId, destNode, handled.length⟩ : Payload V) = payload := by
        rw [h.requests] at hi
        cases i <;> simp_all
      have hmod : (handled.length + 1) % 256 = handled.length + 1 := by
        simp only [List.length_append, List.length_cons] at hlen
        omega
      refine ⟨rest, rfl, ?_, ?_, ?_, ?_, h.received, ?_, h.phase⟩
      · -- the message is passed on along the path
        rcases h.onward.resolve_left (by simp) with _ | ⟨hne, hhop, -⟩
        · simp [h.requests, axiomTracerouteReply]
        · simp [h.requests, axiomTracerouteReply, hne, hhop, hmod]
      · rcases h.onward.resolve_left (by simp) with _ | ⟨-, -, hrest⟩
        · exact .inl rfl
        · exact .inr hrest
      · simp only [axiomTracerouteReply, ne_eq, not_true_eq_false, if_false, List.mem_append,
          List.mem_singleton]
        rintro r (hr | rfl)
        · exact h.replies r hr
        · exact ⟨rfl, rfl⟩
      · have hlines := h.lines.append_right [(y, handled.length + 1)]
        simpa [axiomTracerouteReply, Reply.line, hmod, List.zipIdx_append, add_comm 1] using hlines
      · simpa using h.expected

/-- A reply arrives. -/
theorem Progress.reply (h : Progress net nodeId destNode nodesMax handled rest s)
    (hpath : Leads (net.hop destNode) destNode (handled ++ rest))
    (hlen : (handled ++ rest).length ≤ 255) {i : ℕ} {r : Reply V} (hi : s.replies[i]? = some r) :
    Progress net nodeId destNode nodesMax handled rest
      { s with replies := s.replies.eraseIdx i
               client := s.client.receive destNode r.src r.payload } := by
  have hperm := Mail.eraseIdx_perm hi
  have hmem : r ∈ s.replies := hperm.subset List.mem_cons_self
  have hlines : (s.client.printed ++ [r.line] ++ (s.replies.eraseIdx i).map Reply.line).Perm
      (handled.zipIdx 1) := by
    rw [List.append_assoc, List.singleton_append, ← List.map_cons]
    exact ((hperm.map Reply.line).append_left _).trans h.lines
  have hreceived : (s.client.receivedReply + 1) % 256 = s.client.printed.length + 1 := by
    have hle := hlines.length_eq
    simp only [List.length_append, List.length_singleton, List.length_map, List.length_zipIdx]
      at hle hlen
    rw [h.received]
    omega
  -- a reply of the destination carries the length of the path
  have hdest : r.src = destNode → r.payload.step = (handled ++ rest).length := by
    intro hsrc
    have hline : (destNode, r.payload.step) ∈ (handled ++ rest).zipIdx 1 := by
      rw [List.zipIdx_append, ← hsrc]
      exact List.mem_append_left _ (h.lines.subset
        (List.mem_append_right _ (List.mem_map_of_mem hmem)))
    have hlast := hpath.mem_zipIdx_target.mp hline
    omega
  have hcommand := (h.replies r hmem).2
  simp only [Client.receive, hcommand, ne_eq, not_true_eq_false, if_false, hreceived]
  refine ⟨h.requests, h.onward, fun r' hr' ↦ h.replies r' (List.mem_of_mem_eraseIdx hr'), hlines,
    by simp, ?_, rfl⟩
  simp only
  by_cases hsrc : r.src = destNode
  · rw [if_pos hsrc, hdest hsrc, if_pos]
    simp [hsrc]
  · rw [if_neg hsrc, h.expected]
    have hne : (destNode, (handled ++ rest).length) ≠ (r.src, r.payload.step) :=
      fun heq ↦ hsrc (Prod.ext_iff.mp heq).1.symm
    simp only [List.mem_append, List.mem_singleton, hne, or_false]

/-- When the client reports, all replies have arrived. -/
theorem Progress.reported (h : Progress net nodeId destNode nodesMax handled rest s)
    (hmax : (handled ++ rest).length ≤ nodesMax) {hops : ℕ}
    (hphase : s.client.phase = .reported hops) :
    hops = (handled ++ rest).length ∧ s.client.receivedReply = (handled ++ rest).length ∧
      s.client.printed.Perm ((handled ++ rest).zipIdx 1) := by
  have hlength := h.length_printed
  have hle : handled.length ≤ (handled ++ rest).length := by simp
  have hreceived := h.received
  rw [h.phase] at hphase
  split_ifs at hphase with hlt
  obtain rfl := Phase.reported.inj hphase
  -- either way as many replies have come as the path has nodes
  have hall : s.client.printed.length = (handled ++ rest).length := by
    have hexpected := h.expected
    split_ifs at hexpected <;> omega
  have hrest : rest = [] := List.eq_nil_of_length_eq_zero (by simp at hall; omega)
  have hreplies : s.replies = [] := List.eq_nil_of_length_eq_zero (by omega)
  have hlines := h.lines
  rw [hreplies, List.map_nil, List.append_nil] at hlines
  subst hrest
  rw [List.append_nil] at hall ⊢
  exact ⟨hreceived.trans hall, hreceived.trans hall, hlines⟩

/-- The client does not wait for a reply that will not come. -/
theorem Progress.reported_of_stuck (h : Progress net nodeId destNode nodesMax handled rest s)
    (hpath : Leads (net.hop destNode) destNode (handled ++ rest))
    (hstuck : ∀ e, next net nodeId destNode s e = none) :
    s.client.phase = .reported s.client.receivedReply := by
  have hrest : rest = [] := by
    cases hr : rest with
    | nil => rfl
    | cons x rest' =>
        have hnone := hstuck (.request 0)
        simp [next, h.requests, hr] at hnone
  subst hrest
  rw [List.append_nil] at hpath
  have hphase := h.phase
  split_ifs at hphase with hlt
  · have hreplies : s.replies = [] := by
      cases hr : s.replies with
      | nil => rfl
      | cons r rs =>
          have hnone := hstuck (.reply 0)
          simp [next, hphase, hr, (h.replies r (by simp [hr])).1] at hnone
    have hlines := h.lines
    rw [hreplies, List.map_nil, List.append_nil] at hlines
    have hdest : (destNode, handled.length) ∈ s.client.printed :=
      hlines.symm.subset (hpath.mem_zipIdx_target.mpr (add_comm ..))
    have hexpected := h.expected
    rw [List.append_nil, if_pos hdest] at hexpected
    have hlength := h.length_printed
    rw [hreplies, List.length_nil, add_zero] at hlength
    rw [h.received, hexpected, hlength] at hlt
    exact absurd hlt (lt_irrefl _)
  · exact hphase

end Steps

/-! ## Runs -/

section Runs

variable {net : Network V I} {nodeId destNode : V} {nodesMax : ℕ} {path : List V}

omit [DecidableEq V] in
theorem start_eq_some (hfirst : net.hop destNode nodeId = path.head?)
    (hpath : Leads (net.hop destNode) destNode path) :
    start net nodeId destNode nodesMax = some
      ⟨path.head?.toList.map fun x ↦ (x, ⟨.traceroute, nodeId, destNode, 0⟩), [],
        ⟨0, nodesMax % 256, [], .receiving⟩⟩ := by
  obtain ⟨x, hx⟩ : ∃ x, path.head? = some x := by
    cases hpath with
    | last => exact ⟨_, rfl⟩
    | step => exact ⟨_, rfl⟩
  rw [hx] at hfirst ⊢
  obtain ⟨ifId, hif, hlink⟩ := Option.bind_eq_some_iff.mp hfirst
  simp [start, hif, hlink]

theorem progress_of_exec (hpath : Leads (net.hop destNode) destNode path)
    (hlen : path.length ≤ nodesMax) (hmax : nodesMax ≤ 255) {s₀ s : State V}
    (hstart : s₀ = ⟨path.head?.toList.map fun x ↦ (x, ⟨.traceroute, nodeId, destNode, 0⟩), [],
      ⟨0, nodesMax % 256, [], .receiving⟩⟩)
    {tr : List (State V × Event)} (hexec : Exec (next net nodeId destNode) s₀ tr s) :
    ∃ handled rest, path = handled ++ rest ∧
      Progress net nodeId destNode nodesMax handled rest s ∧
      tr.length = handled.length + s.client.printed.length := by
  induction hexec with
  | nil =>
      have hpos : 0 < path.length := by
        cases hpath <;> simp
      have hmod : nodesMax % 256 = nodesMax := Nat.mod_eq_of_lt (by omega)
      refine ⟨[], path, rfl, ?_, by simp [hstart]⟩
      subst hstart
      refine ⟨rfl, .inr hpath, by simp, by simp, rfl, by simp [hmod], ?_⟩
      rw [if_pos]
      simp only [hmod]
      omega
  | @snoc tr s s' e _ hnext ih =>
      obtain ⟨handled, rest, rfl, hprogress, hcount⟩ := ih
      obtain ⟨i, x, payload, rfl, hi, rfl⟩ | ⟨i, r, rfl, -, hi, -, rfl⟩ := next_cases hnext
      · obtain ⟨rest', rfl, hprogress'⟩ := hprogress.request (hlen.trans hmax) hi
        refine ⟨handled ++ [x], rest', by simp, hprogress', ?_⟩
        simp only [List.length_append, List.length_singleton]
        omega
      · have hprogress' := hprogress.reply hpath (hlen.trans hmax) hi
        refine ⟨handled, rest, rfl, hprogress', ?_⟩
        have hlength := hprogress'.length_printed
        have hbefore := hprogress.length_printed
        obtain ⟨hlt, -⟩ := List.getElem?_eq_some_iff.mp hi
        simp only [List.length_eraseIdx_of_lt hlt] at hlength
        simp only [List.length_append, List.length_singleton]
        omega

end Runs

/-- A path of at most `AXIOM_NODES_MAX` hops, and replies in any order: every run ends, and it
ends with the client's report. By then the client has received as many replies as the path
has hops and printed each node of the path once, with its step. -/
theorem traceroute_counts_hops (net : Network V I) (nodeId destNode : V) {nodesMax : ℕ}
    (hmax : nodesMax ≤ 255) {path : List V} (hfirst : net.hop destNode nodeId = path.head?)
    (hpath : Leads (net.hop destNode) destNode path) (hlen : path.length ≤ nodesMax) :
    path.Nodup ∧ ∃ s₀, start net nodeId destNode nodesMax = some s₀ ∧
      ∀ (tr : List (State V × Event)) (s : State V), Exec (next net nodeId destNode) s₀ tr s →
        tr.length ≤ 2 * path.length ∧ s.client.phase ≠ .failed ∧
        ((∀ e, next net nodeId destNode s e = none) →
          s.client.phase = .reported path.length) ∧
        ∀ hops, s.client.phase = .reported hops →
          hops = path.length ∧ s.client.receivedReply = path.length ∧
          s.client.printed.Perm (path.zipIdx 1) := by
  refine ⟨hpath.nodup, _, start_eq_some hfirst hpath, fun tr s hexec ↦ ?_⟩
  obtain ⟨handled, rest, rfl, hprogress, hcount⟩ := progress_of_exec hpath hlen hmax rfl hexec
  refine ⟨?_, ?_, fun hstuck ↦ ?_, fun hops hphase ↦ hprogress.reported hlen hphase⟩
  · have hlength := hprogress.length_printed
    rw [List.length_append]
    omega
  · rw [hprogress.phase]
    split_ifs <;> exact nofun
  · have hphase := hprogress.reported_of_stuck hpath hstuck
    rwa [(hprogress.reported hlen hphase).1] at hphase

/-- Boards in a row, the last with number `n`. -/
def row (n : ℕ) : Network (Fin (n + 1)) Unit where
  nextHop _ _ := some ()
  links x _ := if x = Fin.last n then none else some (x + 1)

/-- Four boards in a row. -/
def line : Network (Fin 4) Unit := row 3

theorem traceroute_counts_hops_line :
    Leads (line.hop 3) 3 [1, 2, 3] ∧
    ∃ s₀, start line 0 3 255 = some s₀ ∧
      ∀ tr s, Exec (next line 0 3) s₀ tr s → ∀ hops, s.client.phase = .reported hops →
        hops = 3 ∧ s.client.printed.Perm [(1, 1), (2, 2), (3, 3)] := by
  have hpath : Leads (line.hop 3) 3 [1, 2, 3] :=
    .step (by decide) (by decide) (.step (by decide) (by decide) .last)
  obtain ⟨-, s₀, hstart, hruns⟩ := traceroute_counts_hops line 0 3 (le_refl 255) (by decide) hpath
    (by decide)
  refine ⟨hpath, s₀, hstart, fun tr s hexec hops hphase ↦ ?_⟩
  obtain ⟨hhops, -, hprinted⟩ := (hruns tr s hexec).2.2.2 hops hphase
  exact ⟨hhops, hprinted⟩

/-- The last reply may arrive first. -/
example : ∃ tr s, Exec (next line 0 3) ⟨[(1, ⟨.traceroute, 0, 3, 0⟩)], [], ⟨0, 255, [], .receiving⟩⟩
    tr s ∧ Meets (fun _ _ ↦ True) tr ∧ s.client.phase = .reported 3 ∧
    s.client.printed = [(3, 3), (1, 1), (2, 2)] :=
  Exec.exists_of_run [.request 0, .request 0, .request 0, .reply 2, .reply 0, .reply 0]
    (by decide)

end AxiomApps.Traceroute
