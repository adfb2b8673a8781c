import AxiomApps.Lib.Execution

/-!
# Programs communicating over FIFO ports

A program is given by the call it is blocked in and by what it does when that
call comes back. Programs at the nodes of a network exchange messages over wires
joining ports; each port holds a queue of messages that have been sent to it and
not yet been received. A receive may take the first message of any port it
listens on. Besides the ordinary outcomes, an event may make a call fail or hand
a receive a message nobody sent.
-/

namespace FifoNet

/-- The call a program is blocked in. -/
inductive Call (ι μ : Type*)
  | internal
  | send (port : ι) (msg : μ)
  | recv (ports : ι → Bool)
  | halted

/-- How a program goes on after each outcome of its calls. -/
structure Program (σ ι μ : Type*) where
  call : σ → Call ι μ
  onInternal : σ → σ
  onSent : σ → σ
  onSendError : σ → σ
  onRecv : ι → μ → σ → σ
  onRecvError : σ → σ

/-- The states of all nodes and the messages waiting at their ports. -/
structure Net (V σ ι μ : Type*) where
  node : V → σ
  chan : V → ι → List μ

inductive Event (V ι μ : Type*)
  | internal (u : V)
  | sent (u : V)
  | sendError (u : V)
  | received (u : V) (i : ι) (m : μ)
  | recvError (u : V)
  | stray (u : V) (i : ι) (m : μ)

variable {V σ ι μ : Type*}

def Event.at : Event V ι μ → V
  | .internal u => u
  | .sent u => u
  | .sendError u => u
  | .received u _ _ => u
  | .recvError u => u
  | .stray u _ _ => u

/-- The events of a run in which no call fails and nothing is made up. -/
def Event.Faultless : Event V ι μ → Prop
  | .internal _ => True
  | .sent _ => True
  | .received _ _ _ => True
  | _ => False

/-- Calls may fail, but nothing is made up. -/
def Event.Genuine : Event V ι μ → Prop
  | .stray _ _ _ => False
  | _ => True

instance (e : Event V ι μ) : Decidable e.Genuine :=
  match e with
  | .stray _ _ _ => .isFalse id
  | .internal _ | .sent _ | .sendError _ | .received _ _ _ | .recvError _ => .isTrue trivial

variable [DecidableEq V] [DecidableEq ι] [DecidableEq μ]

omit [DecidableEq μ] in
def Event.TakesFrom (u : V) (i : ι) : Event V ι μ → Bool
  | .received w k _ => w = u ∧ k = i
  | _ => false

omit [DecidableEq μ] in
/-- How often the events of a trace took a message from port `i` of `u`. -/
def receipts {S : Type*} (tr : List (S × Event V ι μ)) (u : V) (i : ι) : ℕ :=
  tr.countP fun p ↦ p.2.TakesFrom u i

namespace Net

def setNode (s : Net V σ ι μ) (u : V) (n : σ) : Net V σ ι μ :=
  { s with node := Function.update s.node u n }

def setChan (s : Net V σ ι μ) (u : V) (i : ι) (q : List μ) : Net V σ ι μ :=
  { s with chan := fun w k ↦ if w = u ∧ k = i then q else s.chan w k }

/-- A message put on a wire ends up at the far end's queue; an unwired port
swallows it. -/
def put (s : Net V σ ι μ) (dest : Option (V × ι)) (m : μ) : Net V σ ι μ :=
  match dest with
  | none => s
  | some (v, j) => s.setChan v j (s.chan v j ++ [m])

omit [DecidableEq ι] [DecidableEq μ] in
@[simp] theorem setNode_node (s : Net V σ ι μ) (u : V) (n : σ) :
    (s.setNode u n).node = Function.update s.node u n := rfl

omit [DecidableEq ι] [DecidableEq μ] in
@[simp] theorem setNode_chan (s : Net V σ ι μ) (u : V) (n : σ) :
    (s.setNode u n).chan = s.chan := rfl

omit [DecidableEq μ] in
@[simp] theorem setChan_node (s : Net V σ ι μ) (u : V) (i : ι) (q : List μ) :
    (s.setChan u i q).node = s.node := rfl

omit [DecidableEq μ] in
theorem setChan_chan (s : Net V σ ι μ) (u : V) (i : ι) (q : List μ) (w : V) (k : ι) :
    (s.setChan u i q).chan w k = if w = u ∧ k = i then q else s.chan w k := rfl

omit [DecidableEq μ] in
@[simp] theorem put_node (s : Net V σ ι μ) (dest : Option (V × ι)) (m : μ) :
    (s.put dest m).node = s.node := by
  cases dest <;> rfl

omit [DecidableEq μ] in
@[simp] theorem put_none (s : Net V σ ι μ) (m : μ) : s.put none m = s := rfl

omit [DecidableEq μ] in
theorem put_some_chan (s : Net V σ ι μ) (v : V) (j : ι) (m : μ) (w : V) (k : ι) :
    (s.put (some (v, j)) m).chan w k =
      if w = v ∧ k = j then s.chan v j ++ [m] else s.chan w k := rfl

omit [DecidableEq μ] in
theorem countP_put_chan (p : μ → Bool) (s : Net V σ ι μ) (dest : Option (V × ι)) (m : μ) (w : V)
    (k : ι) : ((s.put dest m).chan w k).countP p =
      (s.chan w k).countP p + if dest = some (w, k) ∧ p m = true then 1 else 0 := by
  rcases dest with - | ⟨v, j⟩
  · simp
  · rw [put_some_chan]
    by_cases hw : w = v ∧ k = j
    · obtain ⟨rfl, rfl⟩ := hw
      simp [List.countP_append, List.countP_singleton]
    · have hne : ¬ (v = w ∧ j = k) := fun h ↦ hw ⟨h.1.symm, h.2.symm⟩
      simp [hw, hne]

omit [DecidableEq μ] in
theorem mem_put_chan {s : Net V σ ι μ} {dest : Option (V × ι)} {m m' : μ} {w : V} {k : ι}
    (h : m' ∈ (s.put dest m).chan w k) : m' ∈ s.chan w k ∨ (dest = some (w, k) ∧ m' = m) := by
  rcases dest with - | ⟨v, j⟩
  · exact .inl h
  · rw [put_some_chan] at h
    split at h
    · rename_i hw
      obtain ⟨rfl, rfl⟩ := hw
      rcases List.mem_append.mp h with h | h
      · exact .inl h
      · exact .inr ⟨rfl, List.mem_singleton.mp h⟩
    · exact .inl h

omit [DecidableEq μ] in
theorem mem_setChan_chan {s : Net V σ ι μ} {u : V} {i : ι} {q : List μ} {m m' : μ} {w : V} {k : ι}
    (hchan : s.chan u i = m :: q) (h : m' ∈ (s.setChan u i q).chan w k) : m' ∈ s.chan w k := by
  rw [setChan_chan] at h
  split at h
  · rename_i hw
    obtain ⟨rfl, rfl⟩ := hw
    rw [hchan]
    exact List.mem_cons_of_mem m h
  · exact h

end Net

variable (prog : V → Program σ ι μ) (wire : V → ι → Option (V × ι))

/-- What an event does to the network, where it can happen at all. -/
def next (s : Net V σ ι μ) : Event V ι μ → Option (Net V σ ι μ)
  | .internal u =>
      match (prog u).call (s.node u) with
      | .internal => some (s.setNode u ((prog u).onInternal (s.node u)))
      | _ => none
  | .sent u =>
      match (prog u).call (s.node u) with
      | .send i m => some ((s.setNode u ((prog u).onSent (s.node u))).put (wire u i) m)
      | _ => none
  | .sendError u =>
      match (prog u).call (s.node u) with
      | .send _ _ => some (s.setNode u ((prog u).onSendError (s.node u)))
      | _ => none
  | .received u i m =>
      match (prog u).call (s.node u), s.chan u i with
      | .recv ports, m' :: q =>
          if ports i = true ∧ m' = m then
            some ((s.setNode u ((prog u).onRecv i m (s.node u))).setChan u i q)
          else none
      | _, _ => none
  | .recvError u =>
      match (prog u).call (s.node u) with
      | .recv _ => some (s.setNode u ((prog u).onRecvError (s.node u)))
      | _ => none
  | .stray u i m =>
      match (prog u).call (s.node u) with
      | .recv ports =>
          if ports i = true then some (s.setNode u ((prog u).onRecv i m (s.node u))) else none
      | _ => none

section Receipts

omit [DecidableEq μ]

variable {S : Type*} {tr : List (S × Event V ι μ)} {s : S} {w u : V} {k i : ι} {m : μ}

@[simp] theorem receipts_nil : receipts ([] : List (S × Event V ι μ)) w k = 0 := rfl

theorem receipts_snoc_of_not {e : Event V ι μ} (he : ∀ u i m, e ≠ .received u i m) :
    receipts (tr ++ [(s, e)]) w k = receipts tr w k := by
  have hnot : e.TakesFrom w k = false := by
    cases e with
    | received u i m => exact absurd rfl (he u i m)
    | _ => rfl
  simp [receipts, List.countP_append, hnot]

theorem receipts_snoc_received :
    receipts (tr ++ [(s, .received u i m)]) w k =
      receipts tr w k + if u = w ∧ i = k then 1 else 0 := by
  simp [receipts, List.countP_append, List.countP_cons, Event.TakesFrom]

end Receipts

section Inversion

variable {prog wire} {s s' : Net V σ ι μ} {u : V} {i : ι} {m : μ}

theorem next_internal_iff :
    next prog wire s (.internal u) = some s' ↔
      (prog u).call (s.node u) = .internal ∧
        s' = s.setNode u ((prog u).onInternal (s.node u)) := by
  simp only [next]
  cases hc : (prog u).call (s.node u) <;> simp [eq_comm]

theorem next_sent_iff :
    next prog wire s (.sent u) = some s' ↔
      ∃ i m, (prog u).call (s.node u) = .send i m ∧
        s' = (s.setNode u ((prog u).onSent (s.node u))).put (wire u i) m := by
  simp only [next]
  cases hc : (prog u).call (s.node u) <;> simp [eq_comm]

theorem next_sendError_iff :
    next prog wire s (.sendError u) = some s' ↔
      (∃ i m, (prog u).call (s.node u) = .send i m) ∧
        s' = s.setNode u ((prog u).onSendError (s.node u)) := by
  simp only [next]
  cases hc : (prog u).call (s.node u) <;> simp [eq_comm]

theorem next_received_iff :
    next prog wire s (.received u i m) = some s' ↔
      ∃ ports q, (prog u).call (s.node u) = .recv ports ∧ ports i = true ∧
        s.chan u i = m :: q ∧
        s' = (s.setNode u ((prog u).onRecv i m (s.node u))).setChan u i q := by
  simp only [next]
  cases hc : (prog u).call (s.node u) with
  | recv ports =>
      cases hq : s.chan u i with
      | nil => simp
      | cons m' q =>
          by_cases hm : ports i = true ∧ m' = m
          · obtain ⟨hp, rfl⟩ := hm
            simp only [hp, and_self, if_true, Option.some.injEq, Call.recv.injEq]
            constructor
            · rintro rfl
              exact ⟨ports, q, rfl, hp, rfl, rfl⟩
            · rintro ⟨_, _, rfl, _, ⟨rfl, rfl⟩, rfl⟩
              rfl
          · simp only [hm, if_false, List.cons.injEq, Call.recv.injEq]
            constructor
            · simp
            · rintro ⟨_, _, rfl, hp, ⟨rfl, rfl⟩, _⟩
              exact absurd ⟨hp, rfl⟩ hm
  | internal => simp
  | send i m => simp
  | halted => simp

theorem next_recvError_iff :
    next prog wire s (.recvError u) = some s' ↔
      (∃ ports, (prog u).call (s.node u) = .recv ports) ∧
        s' = s.setNode u ((prog u).onRecvError (s.node u)) := by
  simp only [next]
  cases hc : (prog u).call (s.node u) <;> simp [eq_comm]

theorem next_stray_iff :
    next prog wire s (.stray u i m) = some s' ↔
      (∃ ports, (prog u).call (s.node u) = .recv ports ∧ ports i = true) ∧
        s' = s.setNode u ((prog u).onRecv i m (s.node u)) := by
  simp only [next]
  cases hc : (prog u).call (s.node u) with
  | recv ports =>
      by_cases hp : ports i = true
      · simp [hp, eq_comm (a := s')]
      · simp [hp]
  | internal => simp
  | send i m => simp
  | halted => simp

theorem next_node_of_ne {e : Event V ι μ} (h : next prog wire s e = some s') {w : V}
    (hw : w ≠ e.at) : s'.node w = s.node w := by
  cases e with
  | internal u =>
      obtain ⟨-, rfl⟩ := next_internal_iff.mp h
      exact Function.update_of_ne hw _ _
  | sent u =>
      obtain ⟨i, m, -, rfl⟩ := next_sent_iff.mp h
      rw [Net.put_node]
      exact Function.update_of_ne hw _ _
  | sendError u =>
      obtain ⟨-, rfl⟩ := next_sendError_iff.mp h
      exact Function.update_of_ne hw _ _
  | received u i m =>
      obtain ⟨ports, q, -, -, -, rfl⟩ := next_received_iff.mp h
      exact Function.update_of_ne hw _ _
  | recvError u =>
      obtain ⟨-, rfl⟩ := next_recvError_iff.mp h
      exact Function.update_of_ne hw _ _
  | stray u i m =>
      obtain ⟨-, rfl⟩ := next_stray_iff.mp h
      exact Function.update_of_ne hw _ _

theorem next_not_halted {e : Event V ι μ} (h : next prog wire s e = some s') :
    (prog e.at).call (s.node e.at) ≠ .halted := by
  intro hhalt
  cases e <;> simp [next, Event.at] at h hhalt <;> simp [hhalt] at h

/-- The handler an event calls. -/
def Program.handle (p : Program σ ι μ) (n : σ) : Event V ι μ → σ
  | .internal _ => p.onInternal n
  | .sent _ => p.onSent n
  | .sendError _ => p.onSendError n
  | .received _ i m | .stray _ i m => p.onRecv i m n
  | .recvError _ => p.onRecvError n

theorem next_node_at {e : Event V ι μ} (h : next prog wire s e = some s') :
    s'.node e.at = (prog e.at).handle (s.node e.at) e := by
  cases e with
  | internal u =>
      obtain ⟨-, rfl⟩ := next_internal_iff.mp h
      exact Function.update_self _ _ _
  | sent u =>
      obtain ⟨i, m, -, rfl⟩ := next_sent_iff.mp h
      rw [Net.put_node]
      exact Function.update_self _ _ _
  | sendError u =>
      obtain ⟨-, rfl⟩ := next_sendError_iff.mp h
      exact Function.update_self _ _ _
  | received u i m =>
      obtain ⟨ports, q, -, -, -, rfl⟩ := next_received_iff.mp h
      exact Function.update_self _ _ _
  | recvError u =>
      obtain ⟨-, rfl⟩ := next_recvError_iff.mp h
      exact Function.update_self _ _ _
  | stray u i m =>
      obtain ⟨-, rfl⟩ := next_stray_iff.mp h
      exact Function.update_self _ _ _

/-- What the handler of an event preserves at its node holds of every node after it. -/
theorem next_handled {P : V → σ → Prop} {e : Event V ι μ} (hP : ∀ w, P w (s.node w))
    (hhandle : P e.at ((prog e.at).handle (s.node e.at) e)) (h : next prog wire s e = some s')
    (w : V) : P w (s'.node w) := by
  by_cases hw : w = e.at
  · subst hw
    rwa [next_node_at h]
  · rw [next_node_of_ne h hw]
    exact hP w

/-- What all handlers of the programs preserve holds of every node along a run. -/
theorem next_local {P : V → σ → Prop} {e : Event V ι μ}
    (hinternal : ∀ u n, P u n → P u ((prog u).onInternal n))
    (hsent : ∀ u n, P u n → P u ((prog u).onSent n))
    (hsendError : ∀ u n, P u n → P u ((prog u).onSendError n))
    (hrecv : ∀ u n i m, P u n → P u ((prog u).onRecv i m n))
    (hrecvError : ∀ u n, P u n → P u ((prog u).onRecvError n))
    (hP : ∀ w, P w (s.node w)) (h : next prog wire s e = some s') (w : V) : P w (s'.node w) := by
  refine next_handled hP ?_ h w
  cases e with
  | internal u => exact hinternal u _ (hP u)
  | sent u => exact hsent u _ (hP u)
  | sendError u => exact hsendError u _ (hP u)
  | received u i m => exact hrecv u _ i m (hP u)
  | recvError u => exact hrecvError u _ (hP u)
  | stray u i m => exact hrecv u _ i m (hP u)

/-- The same along a run without faults, of which only the ordinary outcomes are part. -/
theorem next_local_of_faultless {P : V → σ → Prop} {e : Event V ι μ}
    (hinternal : ∀ u n, P u n → P u ((prog u).onInternal n))
    (hsent : ∀ u n, P u n → P u ((prog u).onSent n))
    (hrecv : ∀ u n i m, P u n → P u ((prog u).onRecv i m n)) (he : e.Faultless)
    (hP : ∀ w, P w (s.node w)) (h : next prog wire s e = some s') (w : V) : P w (s'.node w) := by
  refine next_handled hP ?_ h w
  cases e with
  | internal u => exact hinternal u _ (hP u)
  | sent u => exact hsent u _ (hP u)
  | received u i m => exact hrecv u _ i m (hP u)
  | sendError u => exact he.elim
  | recvError u => exact he.elim
  | stray u i m => exact he.elim

/-- An event leaves a queue alone, takes its first message, or is a send to it. -/
theorem next_chan_cases {e : Event V ι μ} (h : next prog wire s e = some s') (v : V) (j : ι) :
    s'.chan v j = s.chan v j ∨ (∃ m, e = .received v j m ∧ s.chan v j = m :: s'.chan v j) ∨
      ∃ i m, e = .sent e.at ∧ (prog e.at).call (s.node e.at) = .send i m ∧
        wire e.at i = some (v, j) ∧ s'.chan v j = s.chan v j ++ [m] := by
  cases e with
  | internal u =>
      obtain ⟨-, rfl⟩ := next_internal_iff.mp h
      exact .inl rfl
  | sent u =>
      obtain ⟨i, m, hcall, rfl⟩ := next_sent_iff.mp h
      cases hdest : wire u i with
      | none => exact .inl rfl
      | some p =>
          rw [Net.put_some_chan]
          by_cases hp : v = p.1 ∧ j = p.2
          · obtain ⟨rfl, rfl⟩ := hp
            exact .inr (.inr ⟨i, m, rfl, hcall, hdest, by simp⟩)
          · exact .inl (by rw [if_neg hp, Net.setNode_chan])
  | sendError u =>
      obtain ⟨-, rfl⟩ := next_sendError_iff.mp h
      exact .inl rfl
  | received u i m =>
      obtain ⟨ports, q, -, -, hchan, rfl⟩ := next_received_iff.mp h
      rw [Net.setChan_chan]
      by_cases hp : v = u ∧ j = i
      · obtain ⟨rfl, rfl⟩ := hp
        exact .inr (.inl ⟨m, rfl, by simpa using hchan⟩)
      · exact .inl (by rw [if_neg hp, Net.setNode_chan])
  | recvError u =>
      obtain ⟨-, rfl⟩ := next_recvError_iff.mp h
      exact .inl rfl
  | stray u i m =>
      obtain ⟨-, rfl⟩ := next_stray_iff.mp h
      exact .inl rfl

/-- A program blocked in a send goes on when the send is done or fails. -/
theorem next_of_send {e : Event V ι μ} (h : next prog wire s e = some s')
    (hcall : (prog e.at).call (s.node e.at) = .send i m) :
    e = .sent e.at ∨ e = .sendError e.at := by
  cases e with
  | sent u => exact .inl rfl
  | sendError u => exact .inr rfl
  | internal u => simp_all [next, Event.at]
  | received u i m => simp_all [next, Event.at]
  | recvError u => simp_all [next, Event.at]
  | stray u i m => simp_all [next, Event.at]

theorem next_sent_chan (h : next prog wire s (.sent u) = some s')
    (hcall : (prog u).call (s.node u) = .send i m) {v : V} {j : ι}
    (hwire : wire u i = some (v, j)) :
    s'.chan v j = s.chan v j ++ [m] := by
  obtain ⟨i', m', hcall', rfl⟩ := next_sent_iff.mp h
  obtain ⟨rfl, rfl⟩ := Call.send.inj (hcall.symm.trans hcall')
  rw [hwire, Net.put_some_chan, if_pos ⟨rfl, rfl⟩, Net.setNode_chan]

theorem next_mem_chan {e : Event V ι μ} (h : next prog wire s e = some s') {v : V} {j : ι} {m : μ}
    (hm : m ∈ s'.chan v j) : m ∈ s.chan v j ∨ ∃ i, e = .sent e.at ∧
      (prog e.at).call (s.node e.at) = .send i m ∧ wire e.at i = some (v, j) := by
  rcases next_chan_cases h v j with hsame | ⟨m', -, hchan⟩ | ⟨i, m', he, hcall, hwire, hchan⟩
  · exact .inl (hsame ▸ hm)
  · rw [hchan]
    exact .inl (List.mem_cons_of_mem m' hm)
  · rw [hchan] at hm
    rcases List.mem_append.mp hm with hm | hm
    · exact .inl hm
    · obtain rfl := List.mem_singleton.mp hm
      exact .inr ⟨i, he, hcall, hwire⟩

theorem next_mem_chan_of_ne {e : Event V ι μ} (h : next prog wire s e = some s') {v : V} {j : ι}
    {m : μ} (hm : m ∈ s.chan v j) (hne : e ≠ .received v j m) : m ∈ s'.chan v j := by
  rcases next_chan_cases h v j with hsame | ⟨m', rfl, hchan⟩ | ⟨i, m', -, -, -, hchan⟩
  · exact hsame ▸ hm
  · rw [hchan] at hm
    rcases List.mem_cons.mp hm with rfl | hm
    · exact absurd rfl hne
    · exact hm
  · rw [hchan]
    exact List.mem_append_left _ hm

theorem next_wired {e : Event V ι μ}
    (hwired : ∀ v j, s.chan v j ≠ [] → ∃ u i, wire u i = some (v, j))
    (h : next prog wire s e = some s') (v : V) (j : ι) (hne : s'.chan v j ≠ []) :
    ∃ u i, wire u i = some (v, j) := by
  rcases next_chan_cases h v j with hsame | ⟨m, -, hchan⟩ | ⟨i, m, -, -, hwire, -⟩
  · exact hwired v j (hsame ▸ hne)
  · exact hwired v j (by simp [hchan])
  · exact ⟨e.at, i, hwire⟩

end Inversion

/-! ## One queue in use -/

section Single

omit [DecidableEq μ]

/-- The network in which only port `k` of `b` holds messages. -/
def Net.single (node : V → σ) (b : V) (k : ι) (q : List μ) : Net V σ ι μ where
  node := node
  chan w i := if w = b ∧ i = k then q else []

namespace Net

variable {node : V → σ} {b : V} {k : ι} {q : List μ}

@[simp] theorem single_node : (single node b k q).node = node := rfl

theorem single_chan_eq_cons {w : V} {i : ι} {m : μ} {r : List μ}
    (h : (single node b k q).chan w i = m :: r) : w = b ∧ i = k ∧ q = m :: r := by
  by_cases hw : w = b ∧ i = k
  · exact ⟨hw.1, hw.2, by simpa [single, hw] using h⟩
  · simp [single, hw] at h

theorem mem_single_chan {w : V} {i : ι} {m : μ} (h : m ∈ (single node b k q).chan w i) :
    w = b ∧ i = k ∧ m ∈ q := by
  by_cases hw : w = b ∧ i = k
  · exact ⟨hw.1, hw.2, by simpa [single, hw] using h⟩
  · simp [single, hw] at h

theorem single_nil (b' : V) (k' : ι) :
    single node b k ([] : List μ) = single node b' k' [] := by
  simp [single]

theorem setNode_single (u : V) (n : σ) :
    (single node b k q).setNode u n = single (Function.update node u n) b k q := rfl

theorem setChan_single (q' : List μ) :
    (single node b k q).setChan b k q' = single node b k q' := by
  simp only [setChan, single, Net.mk.injEq, true_and]
  funext w i
  by_cases hw : w = b ∧ i = k
  · simp [hw]
  · simp [hw]

theorem put_single (m : μ) :
    (single node b k q).put (some (b, k)) m = single node b k (q ++ [m]) := by
  rw [put, setChan_single]
  simp [single]

theorem put_single_nil {v : V} {j : ι} (m : μ) :
    (single node b k []).put (some (v, j)) m = single node v j [m] := by
  rw [single_nil v j, put_single, List.nil_append]

end Net

variable {prog wire} {node : V → σ} {a b : V} {k : ι} {q : List μ} {s' : Net V σ ι μ}

/-- The program is blocked until a message arrives, if not for good. -/
def Blocked (p : Program σ ι μ) (n : σ) : Prop :=
  (∃ ports, p.call n = .recv ports) ∨ p.call n = .halted

/-- When all nodes but `a` are blocked and only one queue is in use, a faultless
event is a step of `a` or a receive from that queue. -/
theorem next_single_cases [DecidableEq μ] {e : Event V ι μ}
    (hblocked : ∀ w, w ≠ a → Blocked (prog w) (node w)) (he : e.Faultless)
    (h : next prog wire (.single node b k q) e = some s') :
    ((prog a).call (node a) = .internal ∧
        s' = .single (Function.update node a ((prog a).onInternal (node a))) b k q) ∨
      (∃ i m, (prog a).call (node a) = .send i m ∧ e = .sent a ∧
        s' = (Net.single (Function.update node a ((prog a).onSent (node a))) b k q).put
          (wire a i) m) ∨
      ∃ ports m r, (prog b).call (node b) = .recv ports ∧ q = m :: r ∧ e = .received b k m ∧
        s' = .single (Function.update node b ((prog b).onRecv k m (node b))) b k r := by
  have hactive : ∀ u, ¬ Blocked (prog u) (node u) → u = a := fun u hu ↦
    by_contra fun hne ↦ hu (hblocked u hne)
  cases e with
  | internal u =>
      obtain ⟨hcall, rfl⟩ := next_internal_iff.mp h
      rw [Net.single_node] at hcall
      obtain rfl := hactive u (by simp [Blocked, hcall])
      exact .inl ⟨hcall, rfl⟩
  | sent u =>
      obtain ⟨i, m, hcall, rfl⟩ := next_sent_iff.mp h
      rw [Net.single_node] at hcall
      obtain rfl := hactive u (by simp [Blocked, hcall])
      exact .inr (.inl ⟨i, m, hcall, rfl, rfl⟩)
  | received u i m =>
      obtain ⟨ports, r, hcall, -, hchan, rfl⟩ := next_received_iff.mp h
      obtain ⟨rfl, rfl, rfl⟩ := Net.single_chan_eq_cons hchan
      refine .inr (.inr ⟨ports, m, r, hcall, rfl, rfl, ?_⟩)
      rw [Net.setNode_single, Net.setChan_single, Net.single_node]
  | sendError u => exact he.elim
  | recvError u => exact he.elim
  | stray u i m => exact he.elim

/-- When all nodes are blocked the next event takes the head of the queue. -/
theorem next_single_blocked [DecidableEq μ] {e : Event V ι μ}
    (hblocked : ∀ w, Blocked (prog w) (node w)) (he : e.Faultless)
    (h : next prog wire (.single node b k q) e = some s') :
    ∃ m r, q = m :: r ∧ e = .received b k m ∧
      s' = .single (Function.update node b ((prog b).onRecv k m (node b))) b k r := by
  rcases next_single_cases (a := b) (fun w _ ↦ hblocked w) he h with
    ⟨hcall, _⟩ | ⟨_, _, hcall, _⟩ | ⟨_, m, r, _, hq, he, hs⟩
  · rcases hblocked b with ⟨_, hrecv⟩ | hhalt <;> simp_all
  · rcases hblocked b with ⟨_, hrecv⟩ | hhalt <;> simp_all
  · exact ⟨m, r, hq, he, hs⟩

/-- When nothing is in flight and only `a` is not blocked, in a send, the next event
is that send. -/
theorem next_single_send [DecidableEq μ] {e : Event V ι μ} {i j : ι} {m : μ} {v : V}
    (hblocked : ∀ w, w ≠ a → Blocked (prog w) (node w))
    (hcall : (prog a).call (node a) = .send i m) (hwire : wire a i = some (v, j))
    (he : e.Faultless) (h : next prog wire (.single node b k []) e = some s') :
    e = .sent a ∧ s' = .single (Function.update node a ((prog a).onSent (node a))) v j [m] := by
  rcases next_single_cases hblocked he h with
    ⟨hcall', _⟩ | ⟨i', m', hcall', he, hs⟩ | ⟨_, _, _, _, hq, _⟩
  · simp_all
  · obtain ⟨rfl, rfl⟩ : i = i' ∧ m = m' := by simpa [hcall] using hcall'
    rw [hwire, Net.put_single_nil] at hs
    exact ⟨he, hs⟩
  · cases hq

theorem next_single_received [DecidableEq μ] {ports : ι → Bool} {m : μ}
    (hcall : (prog b).call (node b) = .recv ports) (hport : ports k = true) :
    (next prog wire (.single node b k (m :: q)) (.received b k m)).isSome := by
  refine Option.isSome_iff_exists.mpr ⟨_, next_received_iff.mpr
    ⟨ports, q, hcall, hport, ?_, rfl⟩⟩
  simp [Net.single]

end Single

/-! ## Two nodes talking -/

section Between

open EventSystem

/-- Nothing is in flight, and two nodes are in the states given. -/
structure Between (s : Net V σ ι μ) (u v : V) (n n' : σ) : Prop where
  left : s.node u = n
  right : s.node v = n'
  empty : ∀ w k, s.chan w k = []

variable {prog wire} {s : Net V σ ι μ} {u v : V} {n n' : σ}

omit [DecidableEq V] [DecidableEq ι] [DecidableEq μ] in
theorem Between.symm (h : Between s u v n n') : Between s v u n' n :=
  ⟨h.right, h.left, h.empty⟩

/-- One node sends and the other one, which waits for it, reads the message. -/
theorem Between.handOver (h : Between s u v n n') (hne : u ≠ v) {i j : ι} {m : μ}
    {ports : ι → Bool} (hcall : (prog u).call n = .send i m) (hwire : wire u i = some (v, j))
    (hrecv : (prog v).call n' = .recv ports) (hport : ports j = true) :
    ∃ s', Reaches (next prog wire) (fun _ e ↦ e.Faultless) s s' ∧
      Between s' u v ((prog u).onSent n) ((prog v).onRecv j m n') := by
  obtain ⟨rfl, rfl, hempty⟩ := h
  have hsent : next prog wire s (.sent u) = some _ := next_sent_iff.mpr ⟨i, m, hcall, rfl⟩
  have hread : next prog wire ((s.setNode u ((prog u).onSent (s.node u))).put (wire u i) m)
      (.received v j m) = some _ :=
    next_received_iff.mpr ⟨ports, [], by simpa [hne.symm] using hrecv, hport,
      by simp [hwire, Net.put_some_chan, hempty], rfl⟩
  have hfirst : Reaches (next prog wire) (fun _ e ↦ e.Faultless) s _ :=
    .single (e := .sent u) trivial hsent
  refine ⟨_, hfirst.step (e := .received v j m) trivial hread, ?_, ?_, ?_⟩
  · simp [hne]
  · simp [hne.symm]
  · intro w k
    rw [Net.setChan_chan, hwire]
    split
    · rfl
    · simp_all [Net.put_some_chan]

theorem Between.internal (h : Between s u v n n') (hne : u ≠ v)
    (hcall : (prog v).call n' = .internal) :
    ∃ s', Reaches (next prog wire) (fun _ e ↦ e.Faultless) s s' ∧
      Between s' u v n ((prog v).onInternal n') := by
  obtain ⟨rfl, rfl, hempty⟩ := h
  have hstep : next prog wire s (.internal v) = some _ := next_internal_iff.mpr ⟨hcall, rfl⟩
  refine ⟨_, Reaches.single (e := .internal v) trivial hstep, ?_, ?_, hempty⟩
  · simp [hne]
  · simp

end Between

/-! ## Weights -/

section Weight

theorem sum_add_eq_of_differ {α : Type*} [DecidableEq α] {t : Finset α} {f g : α → ℕ} {a : α}
    (ha : a ∈ t) (h : ∀ x ∈ t, x ≠ a → f x = g x) :
    ∑ x ∈ t, f x + g a = ∑ x ∈ t, g x + f a := by
  rw [← Finset.add_sum_erase t f ha, ← Finset.add_sum_erase t g ha]
  have hrest : ∑ x ∈ t.erase a, f x = ∑ x ∈ t.erase a, g x :=
    Finset.sum_congr rfl fun x hx ↦ h x (Finset.mem_of_mem_erase hx) (Finset.ne_of_mem_erase hx)
  omega

omit [DecidableEq V] [DecidableEq ι] [DecidableEq μ] in
/-- A weight for the nodes in `A` and for the messages waiting at the ports in `P`. -/
def Net.weightOn (A : Finset V) (P : Finset (V × ι)) (f : V → σ → ℕ) (g : μ → ℕ)
    (s : Net V σ ι μ) : ℕ :=
  ∑ w ∈ A, f w (s.node w) + ∑ p ∈ P, ((s.chan p.1 p.2).map g).sum

omit [DecidableEq V] [DecidableEq ι] [DecidableEq μ] in
/-- A weight for every node and for every message waiting at a port in `I`. -/
def Net.weight [Fintype V] (f : V → σ → ℕ) (g : μ → ℕ) (I : Finset ι) (s : Net V σ ι μ) : ℕ :=
  s.weightOn Finset.univ (Finset.univ ×ˢ I) f g

variable {prog wire} {A : Finset V} {P : Finset (V × ι)} {f : V → σ → ℕ} {g : μ → ℕ}
  {s s' : Net V σ ι μ}

omit [DecidableEq ι] [DecidableEq μ] in
theorem Net.weightOn_setNode {u : V} (hu : u ∈ A) (n : σ) :
    (s.setNode u n).weightOn A P f g + f u (s.node u) = s.weightOn A P f g + f u n := by
  have hsum := sum_add_eq_of_differ (f := fun w ↦ f w ((s.setNode u n).node w))
    (g := fun w ↦ f w (s.node w)) hu fun w _ hw ↦ by simp [hw]
  simp only [setNode_node, Function.update_self] at hsum
  simp only [weightOn, setNode_chan, setNode_node]
  omega

omit [DecidableEq μ] in
theorem Net.weightOn_setChan {u : V} {i : ι} (hi : (u, i) ∈ P) (q : List μ) :
    (s.setChan u i q).weightOn A P f g + ((s.chan u i).map g).sum =
      s.weightOn A P f g + (q.map g).sum := by
  have hsum := sum_add_eq_of_differ
    (f := fun p : V × ι ↦ (((s.setChan u i q).chan p.1 p.2).map g).sum)
    (g := fun p : V × ι ↦ ((s.chan p.1 p.2).map g).sum) hi (by
      rintro ⟨w, k⟩ _ hne
      have hwk : ¬ (w = u ∧ k = i) := fun h ↦ hne (Prod.ext h.1 h.2)
      simp [setChan_chan, hwk])
  simp only [setChan_chan, and_self, if_true] at hsum
  simp only [weightOn, setChan_node, setChan_chan]
  omega

omit [DecidableEq μ] in
theorem Net.weightOn_put_le (dest : Option (V × ι)) (m : μ) :
    (s.put dest m).weightOn A P f g ≤ s.weightOn A P f g + g m := by
  rcases dest with - | ⟨v, j⟩
  · simp
  · by_cases hj : (v, j) ∈ P
    · have h := weightOn_setChan (A := A) (f := f) (g := g) (s := s) hj (s.chan v j ++ [m])
      simp only [List.map_append, List.sum_append, List.map_cons, List.map_nil, List.sum_cons,
        List.sum_nil] at h
      rw [put]
      omega
    · have hsame : (s.put (some (v, j)) m).weightOn A P f g = s.weightOn A P f g := by
        simp only [weightOn, put_node]
        congr 1
        refine Finset.sum_congr rfl ?_
        rintro ⟨w, k⟩ hp
        have hk : ¬ (w = v ∧ k = j) := by
          rintro ⟨rfl, rfl⟩
          exact hj hp
        simp [put_some_chan, hk]
      omega

/-- The weight drops along every faultless step at the given nodes and ports when each of
the programs' own steps pays for the messages it sends and is paid by those it reads. -/
theorem next_weightOn_lt
    (hinternal : ∀ u n, (prog u).call n = .internal → f u ((prog u).onInternal n) < f u n)
    (hsend : ∀ u n i m, (prog u).call n = .send i m → f u ((prog u).onSent n) + g m < f u n)
    (hrecv : ∀ u n P i m, (prog u).call n = .recv P → f u ((prog u).onRecv i m n) < f u n + g m)
    {e : Event V ι μ} (he : e.Faultless) (hnode : e.at ∈ A)
    (hport : ∀ u i m, e = .received u i m → (u, i) ∈ P)
    (h : next prog wire s e = some s') : s'.weightOn A P f g < s.weightOn A P f g := by
  cases e with
  | internal u =>
      obtain ⟨hcall, rfl⟩ := next_internal_iff.mp h
      have hlt := hinternal u _ hcall
      have hw := Net.weightOn_setNode (P := P) (f := f) (g := g) (s := s) hnode
        ((prog u).onInternal (s.node u))
      simp only [Event.at] at hw
      omega
  | sent u =>
      obtain ⟨i, m, hcall, rfl⟩ := next_sent_iff.mp h
      have hlt := hsend u _ i m hcall
      have hw := Net.weightOn_setNode (P := P) (f := f) (g := g) (s := s) hnode
        ((prog u).onSent (s.node u))
      have hput := Net.weightOn_put_le (A := A) (P := P) (f := f) (g := g)
        (s := s.setNode u ((prog u).onSent (s.node u))) (wire u i) m
      simp only [Event.at] at hw
      omega
  | received u i m =>
      obtain ⟨ports, q, hcall, -, hchan, rfl⟩ := next_received_iff.mp h
      have hlt := hrecv u _ ports i m hcall
      have hw := Net.weightOn_setNode (P := P) (f := f) (g := g) (s := s) hnode
        ((prog u).onRecv i m (s.node u))
      have hc := Net.weightOn_setChan (A := A) (f := f) (g := g)
        (s := s.setNode u ((prog u).onRecv i m (s.node u))) (hport u i m rfl) q
      rw [Net.setNode_chan, hchan, List.map_cons, List.sum_cons] at hc
      simp only [Event.at] at hw
      omega
  | sendError u => exact he.elim
  | recvError u => exact he.elim
  | stray u i m => exact he.elim

/-- The same for the weight of all nodes. -/
theorem next_weight_lt [Fintype V] {I : Finset ι}
    (hinternal : ∀ u n, (prog u).call n = .internal → f u ((prog u).onInternal n) < f u n)
    (hsend : ∀ u n i m, (prog u).call n = .send i m → f u ((prog u).onSent n) + g m < f u n)
    (hrecv : ∀ u n P i m, (prog u).call n = .recv P → f u ((prog u).onRecv i m n) < f u n + g m)
    {e : Event V ι μ} (he : e.Faultless) (hport : ∀ u i m, e = .received u i m → i ∈ I)
    (h : next prog wire s e = some s') : s'.weight f g I < s.weight f g I := by
  refine next_weightOn_lt hinternal hsend hrecv he (Finset.mem_univ _)
    (fun u i m hreceived ↦ ?_) h
  exact Finset.mem_product.mpr ⟨Finset.mem_univ u, hport u i m hreceived⟩

end Weight

end FifoNet
