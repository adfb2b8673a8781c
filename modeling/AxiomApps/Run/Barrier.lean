import AxiomApps.Lib.Relay
import AxiomApps.Run.Services

/-!
# The barrier service of axiom-run

A child that calls `axrun_sync` binds a socket named after the barrier, posts a request
at its slave and waits at the socket. `sock_thread` passes requests on to the master,
which counts them and, when every node has asked, sends the last request back to all
nodes; `recv_thread` hands a release to the socket of the barrier it names.

A call is in one of three places, and between calls its socket does not exist. The
counts of calls begun and returned are read off the trace.
-/

namespace AxiomApps.Run.Barrier

open EventSystem

/-- The commands of `common.h`. -/
inductive Command
  | exit
  | kill
  | sendToStdout
  | sendToStderr
  | recvFromStdin
  | barrier
  | rpc
  | start
  deriving DecidableEq, Repr

/-- What the barrier service uses of `header_t`. -/
structure Header where
  command : Command
  barrierId : ℕ
  deriving DecidableEq, Repr

def axrunMaxBarrierId : ℕ := 15

/-- A call of `axrun_sync`: its socket is bound, or it has sent its request and waits. -/
inductive Call
  | idle
  | bound
  | waiting
  deriving DecidableEq, Repr

abbrev Counters := ℕ → ℕ

/-- The sockets of a node are named by barrier ids. The slave sends as many bytes of a
release as `select` has found descriptors ready, which is one: the command. -/
structure State (V : Type*) where
  net : Relay.Net V ℕ Header Command Counters
  calls : V → ℕ → Call

inductive Event (V : Type*)
  | begun (v : V) (id : ℕ)
  | posted (v : V) (id : ℕ)
  | refused (v : V) (id : ℕ)
  | interrupted (v : V) (id : ℕ)
  | mismatched (v : V) (id : ℕ)
  | returned (v : V) (id : ℕ)
  | relay (e : Relay.Event V)
  deriving DecidableEq

variable {V : Type*} [DecidableEq V]

/-- `master_receiver` on `CMD_BARRIER`. -/
def masterReceiver (nodes : Nodes V) (sv : Services) (_ : V) (m : Header) (counter : Counters) :
    Counters × List (V × Header) :=
  if m.command = .barrier ∧ sv.barrier = true ∧ m.barrierId ≤ axrunMaxBarrierId then
    let armed := if counter m.barrierId = 0 then nodes.nnodes else counter m.barrierId
    (Function.update counter m.barrierId (armed - 1),
      if armed - 1 = 0 then nodes.toList.map fun v ↦ (v, m) else [])
  else (counter, [])

/-- `recv_thread` on `CMD_BARRIER`. -/
def recvThread (sv : Services) (m : Header) : Option (ℕ × Command) :=
  if m.command = .barrier ∧ sv.barrier = true then some (m.barrierId, m.command) else none

def program (nodes : Nodes V) (sv : Services) : Relay.Program V ℕ Header Command Counters where
  onMsg := masterReceiver nodes sv
  forwards := sv.slave.sockThread
  delivers := sv.slave.recvThread
  route := recvThread sv.slave

/-- The header a call has after it received a datagram into its own request. -/
def syncHeader (id : ℕ) (d : Command) : Header :=
  { command := d, barrierId := id }

/-- What `axrun_sync` returns after it received a datagram. -/
def syncResult (id : ℕ) (d : Command) : ℤ :=
  if (syncHeader id d).barrierId ≠ id ∨ (syncHeader id d).command ≠ .barrier then -1 else 0

def State.syncResult? (s : State V) (v : V) (id : ℕ) : Option ℤ :=
  ((s.net.sock v id).getD []).head?.map (syncResult id)

def State.setCall (s : State V) (v : V) (id : ℕ) (c : Call) : State V :=
  { s with calls := fun w k ↦ if w = v ∧ k = id then c else s.calls w k }

/-- `axrun_sync` step by step. The call returns -1 when the slave's socket is not bound yet
and refuses the request, when a signal interrupts the wait and when the datagram is not
the one expected. -/
def next (nodes : Nodes V) (sv : Services) (s : State V) : Event V → Option (State V)
  | .begun v id =>
      if s.calls v id = .idle ∧ id ≤ axrunMaxBarrierId then
        some { s.setCall v id .bound with net := s.net.bind v id }
      else none
  | .posted v id =>
      if s.calls v id = .bound ∧ s.net.inbox v ≠ none then
        some { s.setCall v id .waiting with net := s.net.post v ⟨.barrier, id⟩ }
      else none
  | .refused v id =>
      if s.calls v id = .bound ∧ s.net.inbox v = none then
        some { s.setCall v id .idle with net := s.net.close v id }
      else none
  | .interrupted v id =>
      if s.calls v id = .waiting then
        some { s.setCall v id .idle with net := s.net.close v id }
      else none
  | .mismatched v id =>
      if s.calls v id = .waiting ∧ s.syncResult? v id = some (-1) then
        some { s.setCall v id .idle with net := s.net.close v id }
      else none
  | .returned v id =>
      if s.calls v id = .waiting ∧ s.syncResult? v id = some 0 then
        some { s.setCall v id .idle with net := s.net.close v id }
      else none
  | .relay e => (Relay.next (program nodes sv) s.net e).map fun net ↦ { s with net := net }

def init : State V where
  net := ⟨fun _ ↦ none, fun _ ↦ [], fun _ ↦ 0, [], fun _ ↦ [], fun _ _ ↦ none⟩
  calls := fun _ _ ↦ .idle

/-- No call ends with -1 at this step. -/
def Event.Succeeds : Event V → Prop
  | .refused _ _ => False
  | .interrupted _ _ => False
  | .mismatched _ _ => False
  | _ => True

instance (e : Event V) : Decidable e.Succeeds :=
  match e with
  | .refused _ _ | .interrupted _ _ | .mismatched _ _ => .isFalse id
  | .begun _ _ | .posted _ _ | .returned _ _ | .relay _ => .isTrue trivial

/-- How often the child of `v` has called `axrun_sync(id)`. -/
def begun (tr : List (State V × Event V)) (v : V) (id : ℕ) : ℕ :=
  tr.countP fun p ↦ p.2 = .begun v id

/-- How many of these calls have returned 0. -/
def returned (tr : List (State V × Event V)) (v : V) (id : ℕ) : ℕ :=
  tr.countP fun p ↦ p.2 = .returned v id

/-- How many requests of `v` for barrier `id` the master has received. -/
def taken (tr : List (State V × Event V)) (v : V) (id : ℕ) : ℕ :=
  tr.countP fun p ↦ p.2 = .relay (.received v) ∧
    ((p.1.net.up v).head?.map Header.barrierId) = some id

section Counts

variable {tr : List (State V × Event V)} {s : State V} {v w : V} {id k : ℕ}

theorem begun_snoc (e : Event V) : begun (tr ++ [(s, e)]) v id =
    begun tr v id + if e = .begun v id then 1 else 0 := by
  simp [begun, List.countP_append, List.countP_singleton]

@[simp] theorem begun_snoc_begun : begun (tr ++ [(s, .begun v id)]) w k =
    begun tr w k + if w = v ∧ k = id then 1 else 0 := by
  simp only [begun_snoc, Event.begun.injEq, eq_comm]

theorem returned_snoc (e : Event V) : returned (tr ++ [(s, e)]) v id =
    returned tr v id + if e = .returned v id then 1 else 0 := by
  simp [returned, List.countP_append, List.countP_singleton]

@[simp] theorem returned_snoc_returned : returned (tr ++ [(s, .returned v id)]) w k =
    returned tr w k + if w = v ∧ k = id then 1 else 0 := by
  simp only [returned_snoc, Event.returned.injEq, eq_comm]

theorem taken_snoc (e : Event V) : taken (tr ++ [(s, e)]) v id =
    taken tr v id + if e = .relay (.received v) ∧
      (s.net.up v).head?.map Header.barrierId = some id then 1 else 0 := by
  simp [taken, List.countP_append, List.countP_singleton]

variable (tr w k) in
theorem taken_snoc_received {m : Header} (hm : (s.net.up v).head? = some m) :
    taken (tr ++ [(s, .relay (.received v))]) w k =
      taken tr w k + if w = v ∧ k = m.barrierId then 1 else 0 := by
  rw [taken_snoc]
  by_cases hw : w = v
  · subst hw
    simp [hm, eq_comm]
  · simp [hw, Ne.symm hw]

end Counts

/-! ## The rounds of a barrier -/

def asks (id : ℕ) (m : Header) : Bool := m.barrierId = id

/-- How many nodes have asked for the release that follows the `r`-th. -/
def asked (nodes : Nodes V) (tr : List (State V × Event V)) (id r : ℕ) : ℕ :=
  nodes.toList.countP fun w ↦ taken tr w id = r + 1

/-- The releases of barrier `id` to `v` that are under way, wait at the socket or have let
a call return. -/
def released (tr : List (State V × Event V)) (s : State V) (v : V) (id : ℕ) : ℕ :=
  (s.net.downward v).countP (asks id) + ((s.net.sock v id).getD []).length + returned tr v id

/-- The master has released barrier `id` for the `r`-th time, to every node. It has at
least `r` requests from each node, and its counter says how many nodes have yet to ask
again. -/
structure Rounds (nodes : Nodes V) (sv : Services) (tr : List (State V × Event V)) (s : State V)
    (id r : ℕ) : Prop where
  released : ∀ v, released tr s v id = r
  le_taken : ∀ v, r ≤ taken tr v id
  unserved : sv.barrier = false → r = 0
  asked_lt : sv.barrier = true → asked nodes tr id r < nodes.nnodes
  counter : sv.barrier = true →
    s.net.hub id = if asked nodes tr id r = 0 then 0 else nodes.nnodes - asked nodes tr id r

/-- What holds in every run in which each call returns 0. -/
structure Inv (nodes : Nodes V) (sv : Services) (tr : List (State V × Event V)) (s : State V) :
    Prop where
  headers : ∀ v, ∀ m ∈ s.net.upward v ++ s.net.downward v,
    m.command = .barrier ∧ m.barrierId ≤ axrunMaxBarrierId
  datagrams : ∀ v id, ∀ d ∈ (s.net.sock v id).getD [], d = .barrier
  bound : ∀ v id, s.net.sock v id = none ↔ s.calls v id = .idle
  range : ∀ v id, s.calls v id ≠ .idle → id ≤ axrunMaxBarrierId
  calls : ∀ v id, begun tr v id = returned tr v id + if s.calls v id = .idle then 0 else 1
  requests : ∀ v id, begun tr v id = (if s.calls v id = .bound then 1 else 0) +
    (s.net.upward v).countP (asks id) + taken tr v id
  rounds : ∀ id, ∃ r, Rounds nodes sv tr s id r

section Invariant

variable {nodes : Nodes V} {sv : Services} {tr tr' : List (State V × Event V)} {s s' : State V}
  {v : V} {id r : ℕ}

theorem Inv.taken_le (hi : Inv nodes sv tr s) (v : V) (id : ℕ) :
    taken tr v id ≤ returned tr v id + 1 := by
  have hcalls := hi.calls v id
  have hrequests := hi.requests v id
  split at hcalls <;> omega

theorem Rounds.taken_le (hr : Rounds nodes sv tr s id r) (hi : Inv nodes sv tr s) (v : V) :
    taken tr v id ≤ r + 1 := by
  have hreleased : Barrier.released tr s v id = r := hr.released v
  have htaken := hi.taken_le v id
  simp only [Barrier.released] at hreleased
  omega

theorem Rounds.sock_le (hr : Rounds nodes sv tr s id r) (hi : Inv nodes sv tr s) (v : V) :
    ((s.net.sock v id).getD []).length ≤ 1 := by
  have hreleased : Barrier.released tr s v id = r := hr.released v
  have htaken := hi.taken_le v id
  have hle := hr.le_taken v
  simp only [Barrier.released] at hreleased
  omega

/-- A step that sends no release and receives no request keeps the rounds. -/
theorem Rounds.congr (hr : Rounds nodes sv tr s id r)
    (hreleased : ∀ v, Barrier.released tr' s' v id = Barrier.released tr s v id)
    (htaken : ∀ v, taken tr' v id = taken tr v id) (hhub : s'.net.hub id = s.net.hub id) :
    Rounds nodes sv tr' s' id r := by
  have hasked : asked nodes tr' id r = asked nodes tr id r := by
    simp only [asked, htaken]
  refine ⟨fun v ↦ (hreleased v).trans (hr.released v), fun v ↦ ?_, hr.unserved, ?_, ?_⟩
  · rw [htaken]
    exact hr.le_taken v
  · rw [hasked]
    exact hr.asked_lt
  · rw [hasked, hhub]
    exact hr.counter

theorem inv_init [Nonempty V] : Inv nodes sv [] (init : State V) := by
  refine ⟨fun v m hm ↦ ?_, fun v id d hd ↦ ?_, fun v id ↦ ?_, fun v id hid ↦ ?_, fun v id ↦ ?_,
    fun v id ↦ ?_, fun id ↦ ⟨0, fun v ↦ ?_, fun v ↦ ?_, fun _ ↦ rfl, fun _ ↦ ?_, fun _ ↦ ?_⟩⟩
  · simp [init, Relay.Net.upward, Relay.Net.downward] at hm
  · simp [init] at hd
  · simp [init]
  · simp [init] at hid
  · simp [init, begun, returned]
  · simp [init, begun, taken, Relay.Net.upward]
  · simp [init, released, returned, Relay.Net.downward]
  · simp
  · obtain ⟨v⟩ := ‹Nonempty V›
    simpa [asked, taken] using nodes.nnodes_pos v
  · simp [init, asked, taken]

theorem inv_begun (hi : Inv nodes sv tr s) (h : next nodes sv s (.begun v id) = some s') :
    Inv nodes sv (tr ++ [(s, .begun v id)]) s' := by
  simp only [next, Option.ite_none_right_eq_some, Option.some.injEq] at h
  obtain ⟨⟨hidle, hid⟩, rfl⟩ := h
  have hnone := (hi.bound v id).mpr hidle
  refine ⟨hi.headers, fun w k d hd ↦ ?_, fun w k ↦ ?_, fun w k hk ↦ ?_, fun w k ↦ ?_,
    fun w k ↦ ?_, fun k ↦ ?_⟩
  · simp only [Relay.Net.bind_sock] at hd
    split at hd
    · simp at hd
    · exact hi.datagrams w k d hd
  · simp only [Relay.Net.bind_sock, State.setCall]
    split
    · simp
    · exact hi.bound w k
  · simp only [State.setCall] at hk
    split at hk
    · next hw => exact hw.2 ▸ hid
    · exact hi.range w k hk
  · have hcalls := hi.calls w k
    simp only [begun_snoc_begun, returned_snoc, State.setCall, reduceCtorEq, if_false, add_zero]
    by_cases hw : w = v ∧ k = id
    · obtain ⟨rfl, rfl⟩ := hw
      simpa [hidle] using hcalls
    · simpa [hw] using hcalls
  · have hrequests := hi.requests w k
    simp only [begun_snoc_begun, taken_snoc, State.setCall, Relay.Net.upward_bind]
    by_cases hw : w = v ∧ k = id
    · obtain ⟨rfl, rfl⟩ := hw
      simp [hrequests, hidle]
      omega
    · simpa [hw] using hrequests
  · obtain ⟨r, hr⟩ := hi.rounds k
    refine ⟨r, hr.congr (fun w ↦ ?_) (fun w ↦ by simp [taken_snoc]) rfl⟩
    simp only [released, returned_snoc, Relay.Net.downward_bind, Relay.Net.bind_sock]
    by_cases hw : w = v ∧ k = id
    · obtain ⟨rfl, rfl⟩ := hw
      simp [hnone]
    · simp [hw]

theorem inv_posted (hi : Inv nodes sv tr s) (h : next nodes sv s (.posted v id) = some s') :
    Inv nodes sv (tr ++ [(s, .posted v id)]) s' := by
  simp only [next, Option.ite_none_right_eq_some, Option.some.injEq] at h
  obtain ⟨⟨hbound, hinbox⟩, rfl⟩ := h
  have hupward := Relay.Net.upward_post (m := ⟨.barrier, id⟩) hinbox
  refine ⟨fun w m hm ↦ ?_, hi.datagrams, fun w k ↦ ?_, fun w k hk ↦ ?_, fun w k ↦ ?_,
    fun w k ↦ ?_, fun k ↦ ?_⟩
  · simp only [hupward, Relay.Net.downward_post, List.mem_append] at hm
    rcases hm with (hm | hm) | hm
    · exact hi.headers w m (List.mem_append_left _ hm)
    · split at hm
      · obtain rfl := List.mem_singleton.mp hm
        exact ⟨rfl, hi.range v id (by simp [hbound])⟩
      · simp at hm
    · exact hi.headers w m (List.mem_append_right _ hm)
  · have hkeep := hi.bound w k
    simp only [State.setCall, Relay.Net.post_sock]
    by_cases hw : w = v ∧ k = id
    · obtain ⟨rfl, rfl⟩ := hw
      simpa [hbound] using hkeep
    · simpa [hw] using hkeep
  · simp only [State.setCall] at hk
    split at hk
    · next hw =>
        obtain ⟨rfl, rfl⟩ := hw
        exact hi.range w k (by simp [hbound])
    · exact hi.range w k hk
  · have hcalls := hi.calls w k
    simp only [begun_snoc, returned_snoc, State.setCall]
    by_cases hw : w = v ∧ k = id
    · obtain ⟨rfl, rfl⟩ := hw
      simpa [hbound] using hcalls
    · simpa [hw] using hcalls
  · have hrequests := hi.requests w k
    simp only [begun_snoc, taken_snoc, State.setCall, hupward, List.countP_append]
    by_cases hw : w = v ∧ k = id
    · obtain ⟨rfl, rfl⟩ := hw
      simp [hrequests, hbound, asks]
      omega
    · have hcount : List.countP (asks k) (if w = v then [⟨.barrier, id⟩] else []) = 0 := by
        split
        · next hwv => simpa [asks, hwv, eq_comm] using hw
        · rfl
      simpa [hw, hcount] using hrequests
  · obtain ⟨r, hr⟩ := hi.rounds k
    exact ⟨r, hr.congr (fun w ↦ by simp [released, returned_snoc])
      (fun w ↦ by simp [taken_snoc]) rfl⟩

theorem inv_returned (hi : Inv nodes sv tr s) (h : next nodes sv s (.returned v id) = some s') :
    Inv nodes sv (tr ++ [(s, .returned v id)]) s' := by
  simp only [next, Option.ite_none_right_eq_some, Option.some.injEq] at h
  obtain ⟨⟨hwaiting, hresult⟩, rfl⟩ := h
  -- a call returns on the only release that waits for it
  have hsock : ((s.net.sock v id).getD []).length = 1 := by
    obtain ⟨r, hr⟩ := hi.rounds id
    have hle := hr.sock_le hi v
    have hne : (s.net.sock v id).getD [] ≠ [] := by
      intro hnil
      simp [State.syncResult?, hnil] at hresult
    have hpos := List.length_pos_of_ne_nil hne
    omega
  refine ⟨hi.headers, fun w k d hd ↦ ?_, fun w k ↦ ?_, fun w k hk ↦ ?_, fun w k ↦ ?_,
    fun w k ↦ ?_, fun k ↦ ?_⟩
  · simp only [Relay.Net.close_sock] at hd
    split at hd
    · simp at hd
    · exact hi.datagrams w k d hd
  · simp only [Relay.Net.close_sock, State.setCall]
    split
    · simp
    · exact hi.bound w k
  · simp only [State.setCall] at hk
    split at hk
    · exact absurd rfl hk
    · exact hi.range w k hk
  · have hcalls := hi.calls w k
    simp only [begun_snoc, returned_snoc_returned, State.setCall]
    by_cases hw : w = v ∧ k = id
    · obtain ⟨rfl, rfl⟩ := hw
      simpa [hwaiting] using hcalls
    · simpa [hw] using hcalls
  · have hrequests := hi.requests w k
    simp only [begun_snoc, taken_snoc, State.setCall, Relay.Net.upward_close]
    by_cases hw : w = v ∧ k = id
    · obtain ⟨rfl, rfl⟩ := hw
      simpa [hwaiting] using hrequests
    · simpa [hw] using hrequests
  · obtain ⟨r, hr⟩ := hi.rounds k
    refine ⟨r, hr.congr (fun w ↦ ?_) (fun w ↦ by simp [taken_snoc]) rfl⟩
    simp only [released, returned_snoc_returned, Relay.Net.downward_close, Relay.Net.close_sock]
    by_cases hw : w = v ∧ k = id
    · obtain ⟨rfl, rfl⟩ := hw
      simp [hsock]
      omega
    · simp [hw]

/-- A relay step that is not a reception leaves the calls and the requests alone. -/
theorem Inv.of_relay (hi : Inv nodes sv tr s) {e : Relay.Event V}
    {net : Relay.Net V ℕ Header Command Counters} (he : ∀ v, e ≠ .received v)
    (hupward : ∀ w, net.upward w = s.net.upward w)
    (hdownward : ∀ w, ∀ m ∈ net.downward w, m ∈ s.net.downward w)
    (hdatagrams : ∀ w k, ∀ d ∈ (net.sock w k).getD [], d = .barrier)
    (hbound : ∀ w k, net.sock w k = none ↔ s.net.sock w k = none)
    (hreleased : ∀ k w, released (tr ++ [(s, .relay e)]) { s with net := net } w k =
      released tr s w k)
    (hhub : net.hub = s.net.hub) :
    Inv nodes sv (tr ++ [(s, .relay e)]) { s with net := net } := by
  have htaken : ∀ w k, taken (tr ++ [(s, .relay e)]) w k = taken tr w k := by
    intro w k
    simp [taken_snoc, he w]
  refine ⟨fun w m hm ↦ ?_, hdatagrams, fun w k ↦ (hbound w k).trans (hi.bound w k), hi.range,
    fun w k ↦ ?_, fun w k ↦ ?_, fun k ↦ ?_⟩
  · rw [hupward, List.mem_append] at hm
    refine hi.headers w m (List.mem_append.mpr (hm.imp id ?_))
    exact hdownward w m
  · simpa [begun_snoc, returned_snoc] using hi.calls w k
  · simpa [begun_snoc, htaken, hupward] using hi.requests w k
  · obtain ⟨r, hr⟩ := hi.rounds k
    exact ⟨r, hr.congr (hreleased k) (fun w ↦ htaken w k) (congrFun hhub k)⟩

theorem inv_silent (hi : Inv nodes sv tr s) {e : Relay.Event V} (he : ∀ v, e ≠ .received v)
    {net : Relay.Net V ℕ Header Command Counters} (h : Relay.Silent s.net net) :
    Inv nodes sv (tr ++ [(s, .relay e)]) { s with net := net } := by
  refine hi.of_relay he h.upward (fun w m hm ↦ h.downward w ▸ hm) ?_ ?_ (fun k w ↦ ?_) h.hub
  · rw [h.sock]
    exact hi.datagrams
  · rw [h.sock]
    exact fun _ _ ↦ Iff.rfl
  · simp [released, returned_snoc, h.downward, h.sock]

theorem Inv.sock_ne_none (hi : Inv nodes sv tr s) {m : Header} (hm : m ∈ s.net.downward v) :
    sv.barrier = true ∧ s.net.sock v m.barrierId ≠ none := by
  obtain ⟨r, hr⟩ := hi.rounds m.barrierId
  have hpos : 0 < (s.net.downward v).countP (asks m.barrierId) :=
    List.countP_pos_iff.mpr ⟨m, hm, by simp [asks]⟩
  have hreleased : released tr s v m.barrierId = r := hr.released v
  have htaken := hr.le_taken v
  have hrequests := hi.requests v m.barrierId
  have hcalls := hi.calls v m.barrierId
  simp only [released] at hreleased
  constructor
  · by_contra hoff
    have hzero := hr.unserved (by simpa using hoff)
    omega
  · -- the node has asked more often than it has been let go
    rw [ne_eq, hi.bound]
    intro hidle
    simp only [hidle, if_true] at hcalls
    omega

theorem inv_delivered (hi : Inv nodes sv tr s) {m : Header}
    {net : Relay.Net V ℕ Header Command Counters}
    (h : Relay.Delivered (program nodes sv) v m s.net net) :
    Inv nodes sv (tr ++ [(s, .relay (.delivered v))]) { s with net := net } := by
  have hm := h.mem_downward
  obtain ⟨hcommand, -⟩ := hi.headers v m (List.mem_append_right _ hm)
  obtain ⟨hbarrier, hbound⟩ := hi.sock_ne_none hm
  obtain ⟨q, hq⟩ := Option.ne_none_iff_exists'.mp hbound
  have hsock : ∀ w k, net.sock w k =
      if w = v ∧ k = m.barrierId then some (q ++ [.barrier]) else s.net.sock w k := by
    have hroute : (program nodes sv).route m = some (m.barrierId, .barrier) := by
      simp [program, recvThread, hcommand, Services.slave_eq, hbarrier]
    intro w k
    rw [h.sock, hroute]
    simp only [Relay.Net.put_sock, hq, Option.map_some]
  refine hi.of_relay (by simp) h.upward (fun w _ hm' ↦ h.downward_subset w hm')
    (fun w k d hd ↦ ?_) (fun w k ↦ ?_) (fun k w ↦ ?_) h.hub
  · rw [hsock] at hd
    split at hd
    · have hq' := hi.datagrams v m.barrierId d
      simp only [Option.getD_some, List.mem_append, List.mem_singleton] at hd
      rcases hd with hd | hd
      · exact hq' (by simpa [hq] using hd)
      · exact hd
    · exact hi.datagrams w k d hd
  · rw [hsock]
    split
    · next hw => simp [hw.1, hw.2, hq]
    · exact Iff.rfl
  · simp only [released, returned_snoc, hsock]
    by_cases hw : w = v
    · subst hw
      by_cases hk : k = m.barrierId
      · subst hk
        simp [h.downward_self, asks, hq]
        omega
      · simp [h.downward_self, asks, hk, Ne.symm hk]
    · simp [h.downward_of_ne w hw, hw]

omit [DecidableEq V] in
theorem masterReceiver_sends (nodes : Nodes V) (sv : Services) (v : V) (m : Header)
    (counter : Counters) :
    (masterReceiver nodes sv v m counter).2 = [] ∨
      (masterReceiver nodes sv v m counter).2 = nodes.toList.map fun w ↦ (w, m) := by
  unfold masterReceiver
  split
  · dsimp only
    generalize (if counter m.barrierId = 0 then nodes.nnodes else counter m.barrierId) - 1 = n
    split
    · exact .inr rfl
    · exact .inl rfl
  · exact .inl rfl

omit [DecidableEq V] in
/-- What the master does with a request while the barrier service is on, in terms of the
requests it still waits for. -/
theorem masterReceiver_eq {m : Header} {counter : Counters} (hcommand : m.command = .barrier)
    (hid : m.barrierId ≤ axrunMaxBarrierId) (hbarrier : sv.barrier = true) {n : ℕ}
    (hn : n < nodes.nnodes)
    (hcounter : counter m.barrierId = if n = 0 then 0 else nodes.nnodes - n) :
    masterReceiver nodes sv v m counter =
      (Function.update counter m.barrierId (nodes.nnodes - (n + 1)),
        if n + 1 = nodes.nnodes then nodes.toList.map fun v ↦ (v, m) else []) := by
  have harmed : (if counter m.barrierId = 0 then nodes.nnodes else counter m.barrierId) =
      nodes.nnodes - n := by
    rw [hcounter]
    split <;> split <;> omega
  have hsub : nodes.nnodes - n - 1 = nodes.nnodes - (n + 1) := by omega
  have hzero : nodes.nnodes - (n + 1) = 0 ↔ n + 1 = nodes.nnodes := by omega
  simp only [masterReceiver, hcommand, hbarrier, hid, harmed, hsub, hzero, and_self, if_true]

section Received

variable {m : Header} {net : Relay.Net V ℕ Header Command Counters}

/-- A node whose request is under way has asked for no release that it has not got. -/
theorem Rounds.taken_eq (hr : Rounds nodes sv tr s m.barrierId r) (hi : Inv nodes sv tr s)
    (hup : m ∈ s.net.upward v) : taken tr v m.barrierId = r := by
  have hrequests := hi.requests v m.barrierId
  have hcalls := hi.calls v m.barrierId
  have hpos : 0 < (s.net.upward v).countP (asks m.barrierId) :=
    List.countP_pos_iff.mpr ⟨m, hup, by simp [asks]⟩
  have hreleased : Barrier.released tr s v m.barrierId = r := hr.released v
  have hle := hr.le_taken v
  simp only [Barrier.released] at hreleased
  split at hcalls <;> omega

theorem Rounds.released_received (hr : Rounds nodes sv tr s m.barrierId r)
    (h : Relay.Received (program nodes sv) v m s.net net) (w : V) :
    Barrier.released (tr ++ [(s, .relay (.received v))]) { s with net := net } w m.barrierId =
      r + (Relay.outTo w (masterReceiver nodes sv v m s.net.hub).2).countP (asks m.barrierId) := by
  rw [← hr.released w]
  simp only [Barrier.released, h.downward, h.sock, program, returned_snoc, List.countP_append,
    reduceCtorEq, if_false]
  omega

theorem Rounds.le_taken_received (hr : Rounds nodes sv tr s m.barrierId r)
    (hm : (s.net.up v).head? = some m) (w : V) :
    r ≤ taken (tr ++ [(s, .relay (.received v))]) w m.barrierId := by
  rw [taken_snoc_received tr w m.barrierId hm]
  exact (hr.le_taken w).trans (Nat.le_add_right _ _)

theorem Rounds.asked_received (hr : Rounds nodes sv tr s m.barrierId r) (hi : Inv nodes sv tr s)
    (hup : m ∈ s.net.upward v) (hm : (s.net.up v).head? = some m) :
    asked nodes (tr ++ [(s, .relay (.received v))]) m.barrierId r =
      asked nodes tr m.barrierId r + 1 := by
  have htaken := fun w ↦ taken_snoc_received tr w m.barrierId hm
  have htaken_v := hr.taken_eq hi hup
  apply nodes.countP_succ (v := v)
  · simp [htaken_v]
  · simp [htaken, htaken_v]
  · intro w hw
    simp [htaken, hw]

theorem Rounds.dropped (hr : Rounds nodes sv tr s m.barrierId r)
    (hm : (s.net.up v).head? = some m) (h : Relay.Received (program nodes sv) v m s.net net)
    (hbarrier : sv.barrier = false) :
    Rounds nodes sv (tr ++ [(s, .relay (.received v))]) { s with net := net } m.barrierId r := by
  have hmaster : masterReceiver nodes sv v m s.net.hub = (s.net.hub, []) := by
    simp [masterReceiver, hbarrier]
  refine ⟨fun w ↦ ?_, hr.le_taken_received hm, hr.unserved, ?_, ?_⟩
  · rw [hr.released_received h, hmaster]
    rfl
  · simp [hbarrier]
  · simp [hbarrier]

/-- The request that completes a round opens the next one, any other is counted. -/
theorem Rounds.received (hr : Rounds nodes sv tr s m.barrierId r) (hi : Inv nodes sv tr s)
    (hm : (s.net.up v).head? = some m) (h : Relay.Received (program nodes sv) v m s.net net)
    (hbarrier : sv.barrier = true) :
    ∃ r', Rounds nodes sv (tr ++ [(s, .relay (.received v))]) { s with net := net }
      m.barrierId r' := by
  have hup := h.mem_upward
  obtain ⟨hcommand, hid⟩ := hi.headers v m (List.mem_append_left _ hup)
  have hlt := hr.asked_lt hbarrier
  have hmaster := masterReceiver_eq (v := v) hcommand hid hbarrier hlt (hr.counter hbarrier)
  have hhub : net.hub m.barrierId = nodes.nnodes - (asked nodes tr m.barrierId r + 1) := by
    rw [h.hub]
    simp only [program, hmaster, Function.update_self]
  have hasked := hr.asked_received hi hup hm
  by_cases hlast : asked nodes tr m.barrierId r + 1 = nodes.nnodes
  · -- every node has now asked `r + 1` times, and none more often
    have hall : ∀ w, taken (tr ++ [(s, .relay (.received v))]) w m.barrierId = r + 1 := by
      intro w
      have hcount := hasked.trans hlast
      simp only [asked, Nodes.nnodes, List.countP_eq_length, decide_eq_true_eq] at hcount
      exact hcount w (nodes.mem w)
    have hnone : asked nodes (tr ++ [(s, .relay (.received v))]) m.barrierId (r + 1) = 0 := by
      simp [asked, hall]
    refine ⟨r + 1, fun w ↦ ?_, fun w ↦ (hall w).ge, by simp [hbarrier], fun _ ↦ ?_, fun _ ↦ ?_⟩
    · rw [hr.released_received h, hmaster]
      simp [hlast, Relay.outTo_map_const nodes.nodup (nodes.mem w), asks]
    · rw [hnone]
      exact nodes.nnodes_pos v
    · rw [hnone, hhub, hlast]
      simp
  · refine ⟨r, fun w ↦ ?_, hr.le_taken_received hm, by simp [hbarrier], fun _ ↦ ?_, fun _ ↦ ?_⟩
    · rw [hr.released_received h, hmaster]
      simp [hlast]
    · rw [hasked]
      omega
    · rw [hasked, hhub]
      simp

theorem eq_of_mem_outTo {counter : Counters} {w : V} {m' : Header}
    (hm' : m' ∈ Relay.outTo w (masterReceiver nodes sv v m counter).2) : m' = m := by
  rcases masterReceiver_sends nodes sv v m counter with hsends | hsends
  · simp [hsends] at hm'
  · simpa [hsends, Relay.outTo_map_const nodes.nodup (nodes.mem w)] using hm'

theorem Rounds.received_of_ne (hr : Rounds nodes sv tr s id r) (hid : m.barrierId ≠ id)
    (hm : (s.net.up v).head? = some m) (h : Relay.Received (program nodes sv) v m s.net net) :
    Rounds nodes sv (tr ++ [(s, .relay (.received v))]) { s with net := net } id r := by
  refine hr.congr (fun w ↦ ?_) (fun w ↦ ?_) ?_
  · have hcount : (Relay.outTo w (masterReceiver nodes sv v m s.net.hub).2).countP (asks id) =
        0 := by
      refine List.countP_eq_zero.mpr fun m' hm' ↦ ?_
      rw [eq_of_mem_outTo hm']
      simpa [asks] using hid
    simp only [Barrier.released, returned_snoc, h.downward, h.sock, program, List.countP_append,
      hcount, reduceCtorEq, if_false, add_zero]
  · simp [taken_snoc_received tr w id hm, Ne.symm hid]
  · rw [h.hub]
    simp only [program, masterReceiver]
    split
    · simp [Ne.symm hid]
    · rfl

theorem inv_received (hi : Inv nodes sv tr s) (hm : (s.net.up v).head? = some m)
    (h : Relay.Received (program nodes sv) v m s.net net) :
    Inv nodes sv (tr ++ [(s, .relay (.received v))]) { s with net := net } := by
  have hup := h.mem_upward
  have hupward : ∀ w k, (s.net.upward w).countP (asks k) =
      (net.upward w).countP (asks k) + if w = v ∧ k = m.barrierId then 1 else 0 := by
    intro w k
    by_cases hw : w = v
    · subst hw
      simp [h.upward_self, List.countP_cons, asks, eq_comm]
    · simp [h.upward_of_ne w hw, hw]
  refine ⟨fun w m' hm' ↦ ?_, ?_, ?_, hi.range, fun w k ↦ ?_, fun w k ↦ ?_, fun k ↦ ?_⟩
  · rw [List.mem_append, h.downward, List.mem_append] at hm'
    rcases hm' with hm' | hm' | hm'
    · exact hi.headers w m' (List.mem_append_left _ (h.upward_subset w hm'))
    · exact hi.headers w m' (List.mem_append_right _ hm')
    · rw [eq_of_mem_outTo (v := v) hm']
      exact hi.headers v m (List.mem_append_left _ hup)
  · rw [h.sock]
    exact hi.datagrams
  · rw [h.sock]
    exact hi.bound
  · simpa [begun_snoc, returned_snoc] using hi.calls w k
  · have hrequests := hi.requests w k
    rw [hupward] at hrequests
    simp only [begun_snoc, taken_snoc_received tr w k hm, reduceCtorEq, if_false]
    omega
  · obtain ⟨r, hr⟩ := hi.rounds k
    by_cases hk : m.barrierId = k
    · subst hk
      cases hbarrier : sv.barrier with
      | false => exact ⟨r, hr.dropped hm h hbarrier⟩
      | true => exact hr.received hi hm h hbarrier
    · exact ⟨r, hr.received_of_ne hk hm h⟩

end Received

theorem Inv.step (hi : Inv nodes sv tr s) {e : Event V} (he : e.Succeeds)
    (h : next nodes sv s e = some s') : Inv nodes sv (tr ++ [(s, e)]) s' := by
  cases e with
  | begun v id => exact inv_begun hi h
  | posted v id => exact inv_posted hi h
  | returned v id => exact inv_returned hi h
  | refused v id => exact he.elim
  | interrupted v id => exact he.elim
  | mismatched v id => exact he.elim
  | relay e =>
      obtain ⟨net, hnet, rfl⟩ := Option.map_eq_some_iff.mp h
      rcases Relay.next_cases hnet with ⟨hs, he⟩ | ⟨v, m, rfl, hm, hrec⟩ | ⟨v, m, rfl, hdel⟩
      · exact inv_silent hi he hs
      · exact inv_received hi hm hrec
      · exact inv_delivered hi hdel

theorem Inv.exec [Nonempty V] (h : Exec (next nodes sv) init tr s)
    (hC : Meets (fun _ e ↦ e.Succeeds) tr) : Inv nodes sv tr s :=
  Exec.trace_invariant (I := fun tr s ↦ Inv nodes sv tr s) inv_init
    (fun _ _ _ _ hi he hnext ↦ hi.step he hnext) h hC

/-- When a child's `k`-th `axrun_sync(id)` has returned, every child has begun its `k`-th. -/
theorem returned_after_all_begun (h : Exec (next nodes sv) init tr s)
    (hC : Meets (fun _ e ↦ e.Succeeds) tr) {k : ℕ} (hret : k ≤ returned tr v id) (w : V) :
    k ≤ begun tr w id := by
  have : Nonempty V := ⟨v⟩
  have hi := Inv.exec h hC
  obtain ⟨r, hr⟩ := hi.rounds id
  have hreleased : released tr s v id = r := hr.released v
  have htaken := hr.le_taken w
  have hrequests := hi.requests w id
  simp only [released] at hreleased
  omega

end Invariant

def pair : Nodes Bool := .pair

/-- Both nodes meet at barrier 3, and one of them has been let go. -/
theorem returned_after_both_begun : ∃ tr s, Exec (next pair (.ofOptions [.profileAll])) init tr s ∧
    Meets (fun _ e ↦ e.Succeeds) tr ∧ 1 ≤ returned tr false 3 ∧ ∀ w, 1 ≤ begun tr w 3 := by
  obtain ⟨tr, s, hexec, hC, hret⟩ :
      ∃ tr s, Exec (next pair (.ofOptions [.profileAll])) init tr s ∧
        Meets (fun _ e ↦ e.Succeeds) tr ∧ 1 ≤ returned tr false 3 :=
    Exec.exists_of_run [.begun false 3, .relay (.opened false), .posted false 3,
      .relay (.forwarded false), .relay (.received false), .begun true 3, .relay (.opened true),
      .posted true 3, .relay (.forwarded true), .relay (.received true), .relay .sent,
      .relay (.delivered false), .returned false 3] (by decide +kernel)
  exact ⟨tr, s, hexec, hC, hret, returned_after_all_begun hexec hC hret⟩

end AxiomApps.Run.Barrier
