import AxiomApps.Traceroute

/-!
# Traceroute messages that go round

A node passes a traceroute message on whenever it is not the destination and has a next hop
for it. The step in the message is an 8-bit number that nobody compares with anything, and the
routing tables of the nodes need not agree, so that a message may never reach the destination.
-/

namespace AxiomApps.Traceroute

open EventSystem Forwarding

variable {V I : Type*} [DecidableEq V]

/-- Where a node passes a message on to. -/
def Network.onward (net : Network V I) (dstId x : V) : Option V :=
  if x ≠ dstId then net.hop dstId x else none

/-- How many messages a step passes on. -/
def forwarded (net : Network V I) : State V × Event → ℕ
  | (s, .request i) =>
      match s.requests[i]? with
      | some (x, payload) => (axiomTracerouteReply net x payload).2.length
      | none => 0
  | (_, .reply _) => 0

/-- How often a run passes a message on. -/
def forwardings (net : Network V I) (tr : List (State V × Event)) : ℕ :=
  (tr.map (forwarded net)).sum

/-- From here on no run passes messages on more than `nodesMax` times. -/
def DiesOut (net : Network V I) (nodeId destNode : V) (nodesMax : ℕ) (s₀ : State V) : Prop :=
  ∀ tr s, Exec (next net nodeId destNode) s₀ tr s → forwardings net tr ≤ nodesMax

variable {net : Network V I} {nodeId destNode srcId dstId x : V} {step : ℕ}

theorem forwardings_snoc (tr : List (State V × Event)) (p : State V × Event) :
    forwardings net (tr ++ [p]) = forwardings net tr + forwarded net p := by
  simp [forwardings]

/-- The step is increased and otherwise has no say. -/
theorem passedOn (net : Network V I) (x srcId dstId : V) (step : ℕ) :
    (axiomTracerouteReply net x ⟨.traceroute, srcId, dstId, step⟩).2 =
      (net.onward dstId x).toList.map fun y ↦
        (y, ⟨.traceroute, srcId, dstId, (step + 1) % 256⟩) := by
  simp only [axiomTracerouteReply, Network.onward, ne_eq, not_true_eq_false, if_false]
  split_ifs <;> rfl

/-! ## One message -/

/-- One message goes from node to node along the next hops; `k` counts them. It is on its way
to the node they lead to, or that node was the last. -/
def Travels (net : Network V I) (srcId dstId x : V) (k : ℕ) (s : State V) : Prop :=
  ∃ y, walk (net.onward dstId) x k = some y ∧
    ((∃ step, s.requests = [(y, ⟨.traceroute, srcId, dstId, step⟩)]) ∨ s.requests = [])

theorem Travels.next {k : ℕ} {s s' : State V} {e : Event} (h : Travels net srcId dstId x k s)
    (hnext : next net nodeId destNode s e = some s') :
    Travels net srcId dstId x (k + forwarded net (s, e)) s' := by
  obtain ⟨y, hwalk, hrequests⟩ := h
  obtain ⟨i, z, payload, rfl, hi, rfl⟩ | ⟨i, r, rfl, -, -, -, rfl⟩ := next_cases hnext
  · rcases hrequests with ⟨step, hrequests⟩ | hempty
    · -- the one message there is
      obtain ⟨rfl, rfl, rfl⟩ : i = 0 ∧ y = z ∧
          (⟨.traceroute, srcId, dstId, step⟩ : Payload V) = payload := by
        rw [hrequests] at hi
        cases i <;> simp_all
      cases honward : net.onward dstId y with
      | none =>
          refine ⟨y, ?_, .inr ?_⟩
          · simpa [forwarded, hrequests, passedOn, honward] using hwalk
          · simp [hrequests, passedOn, honward]
      | some z =>
          refine ⟨z, ?_, .inl ⟨(step + 1) % 256, ?_⟩⟩
          · simp [forwarded, hrequests, passedOn, honward, walk, hwalk]
          · simp [hrequests, passedOn, honward]
    · simp [hempty] at hi
  · exact ⟨y, hwalk, hrequests⟩

theorem travels_of_exec {s₀ s : State V} {tr : List (State V × Event)}
    (hstart : s₀.requests = [(x, ⟨.traceroute, srcId, dstId, step⟩)])
    (hexec : Exec (next net nodeId destNode) s₀ tr s) :
    Travels net srcId dstId x (forwardings net tr) s := by
  induction hexec with
  | nil => exact ⟨x, rfl, .inl ⟨step, hstart⟩⟩
  | snoc _ hnext ih =>
      rw [forwardings_snoc]
      exact ih.next hnext

/-- As long as the walk goes on, so does the message. -/
theorem exists_forwardings {s₀ : State V}
    (hstart : s₀.requests = [(x, ⟨.traceroute, srcId, dstId, step⟩)]) {k : ℕ} {y : V}
    (hwalk : walk (net.onward dstId) x k = some y) :
    ∃ tr s step', Exec (next net nodeId destNode) s₀ tr s ∧ forwardings net tr = k ∧
      s.requests = [(y, ⟨.traceroute, srcId, dstId, step'⟩)] := by
  induction k generalizing y with
  | zero =>
      obtain rfl := Option.some.inj hwalk
      exact ⟨[], s₀, step, .nil, rfl, hstart⟩
  | succ k ih =>
      obtain ⟨z, hz, honward⟩ := Option.bind_eq_some_iff.mp hwalk
      obtain ⟨tr, s, step', hexec, hcount, hrequests⟩ := ih hz
      have hnext : next net nodeId destNode s (.request 0) = some
          { s with requests := [(y, ⟨.traceroute, srcId, dstId, (step' + 1) % 256⟩)]
                   replies := s.replies ++
                    (axiomTracerouteReply net z ⟨.traceroute, srcId, dstId, step'⟩).1 } := by
        simp [next, hrequests, passedOn, honward]
      refine ⟨_, _, (step' + 1) % 256, hexec.snoc hnext, ?_, rfl⟩
      rw [forwardings_snoc, hcount]
      simp [forwarded, hrequests, passedOn, honward]

theorem diesOut_iff_walk {s₀ : State V} {nodesMax : ℕ}
    (hstart : s₀.requests = [(x, ⟨.traceroute, srcId, dstId, step⟩)]) :
    DiesOut net nodeId destNode nodesMax s₀ ↔
      walk (net.onward dstId) x (nodesMax + 1) = none := by
  constructor
  · intro h
    by_contra hsome
    obtain ⟨y, hy⟩ := Option.ne_none_iff_exists'.mp hsome
    obtain ⟨tr, s, -, hexec, hcount, -⟩ := exists_forwardings hstart hy
    have hle := h tr s hexec
    omega
  · intro hnone tr s hexec
    obtain ⟨y, hwalk, -⟩ := travels_of_exec hstart hexec
    by_contra hlt
    rw [walk_eq_none_of_le (by omega) hnone] at hwalk
    cases hwalk

/-- Two boards that each take the other for the way to a third. -/
def pingPong : Network ℕ Unit where
  nextHop _ _ := some ()
  links x _ := if x = 0 then some 1 else some 0

/-- A message for board 2 is passed on between boards 0 and 1 without end. -/
theorem pingPong_forwards (nodesMax : ℕ) :
    ∃ tr s, Exec (next pingPong 0 2)
        ⟨[(1, ⟨.traceroute, 0, 2, 0⟩)], [], ⟨0, 255, [], .receiving⟩⟩ tr s ∧
      nodesMax < forwardings pingPong tr := by
  have hforever : walk (pingPong.onward 2) 1 (nodesMax + 1) ≠ none :=
    walk_ne_none_of_repeat (i := 0) (j := 2) (y := 1) (by decide) rfl (by decide) _
  have hstart : (⟨[(1, ⟨.traceroute, 0, 2, 0⟩)], [], ⟨0, 255, [], .receiving⟩⟩ :
      State ℕ).requests = [(1, ⟨.traceroute, 0, 2, 0⟩)] := rfl
  obtain ⟨y, hy⟩ := Option.ne_none_iff_exists'.mp hforever
  obtain ⟨tr, s, -, hexec, hcount, -⟩ := exists_forwardings hstart hy
  exact ⟨tr, s, hexec, by omega⟩

end AxiomApps.Traceroute
