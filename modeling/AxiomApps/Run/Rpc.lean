import AxiomApps.Lib.Relay
import AxiomApps.Run.Services

/-!
# Remote procedure calls of axiom-run

`axrun_rpc` binds a socket named after the calling thread, posts its request at the slave
and, if it was given a reply buffer, waits at the socket for an answer. The master answers
with the request, its payload rewritten by the function called; the slave hands an answer
to the socket of the thread it names, whichever call of that thread has it bound.

The requests a thread has posted and the requests of the thread the master has received,
each with its answer, are read off the trace; the latter are the former, but for those
still on their way.
-/

namespace AxiomApps.Run.Rpc

open EventSystem

inductive Function
  | ping
  | alloc
  | getRegions
  | allocShblock
  | unknown (n : ℕ)
  deriving DecidableEq, Repr

/-- A message `CMD_RPC`: the calling thread, the function and the payload. -/
structure Msg where
  id : ℕ
  function : Function
  payload : List UInt8
  deriving DecidableEq, Repr

/-- The allocator library behind the functions. Each call rewrites the payload and says
whether there is a reply. -/
structure Allocator (V A : Type*) where
  alloc : List UInt8 → A → A × List UInt8 × Bool
  getRegions : V → List UInt8 → A → A × List UInt8 × Bool
  allocShblock : V → List UInt8 → A → A × List UInt8 × Bool

/-- The master's side: the allocator's state and the reply that is postponed. -/
structure Master (V A : Type*) where
  al2 : A
  rpcReply : Option (V × Msg)

/-- What a call was asked to do; `recvSize` is 0 without a reply buffer. -/
structure Request where
  function : Function
  payload : List UInt8
  recvSize : ℕ
  deriving DecidableEq, Repr

/-- A call of `axrun_rpc`: its socket is bound, or it waits for an answer of at most so
many bytes. -/
inductive Call
  | idle
  | bound (r : Request)
  | waiting (recvSize : ℕ)
  deriving DecidableEq, Repr

structure State (V A : Type*) where
  net : Relay.Net V ℕ Msg Msg (Master V A)
  calls : V → ℕ → Call

inductive Event (V : Type*)
  | begun (v : V) (t : ℕ) (r : Request)
  | posted (v : V) (t : ℕ)
  | refused (v : V) (t : ℕ)
  | interrupted (v : V) (t : ℕ)
  | returned (v : V) (t : ℕ)
  | relay (e : Relay.Event V)
  deriving DecidableEq

variable {V A : Type*} [DecidableEq V]

/-- The end of `rpc_service`: the message goes back to its sender if there is a reply. -/
def sendReply (v : V) (m : Msg) (payload : List UInt8) (reply : Bool) : List (V × Msg) :=
  if reply then [(v, { m with payload := payload })] else []

def rpcService (al : Allocator V A) (v : V) (m : Msg) (h : Master V A) :
    Master V A × List (V × Msg) :=
  match m.function with
  | .ping => (h, sendReply v m m.payload true)
  | .alloc =>
      let (al2, payload, reply) := al.alloc m.payload h.al2
      ({ al2 := al2, rpcReply := if reply then h.rpcReply else some (v, m) },
        sendReply v m payload reply)
  | .getRegions =>
      let (al2, payload, reply) := al.getRegions v m.payload h.al2
      ({ h with al2 := al2 }, sendReply v m payload reply)
  | .allocShblock =>
      let (al2, payload, reply) := al.allocShblock v m.payload h.al2
      ({ h with al2 := al2 }, sendReply v m payload reply)
  | .unknown _ => (h, [])

/-- `master_receiver` on `CMD_RPC`. -/
def masterReceiver (al : Allocator V A) (sv : Services) (v : V) (m : Msg) (h : Master V A) :
    Master V A × List (V × Msg) :=
  if sv.rpc = true then rpcService al v m h else (h, [])

/-- `recv_thread` on `CMD_RPC`. -/
def recvThread (sv : Services) (m : Msg) : Option (ℕ × Msg) :=
  if sv.rpc = true then some (m.id, m) else none

def program (al : Allocator V A) (sv : Services) : Relay.Program V ℕ Msg Msg (Master V A) where
  onMsg := masterReceiver al sv
  forwards := sv.slave.sockThread
  delivers := sv.slave.recvThread
  route := recvThread sv.slave

def State.setCall (s : State V A) (v : V) (t : ℕ) (c : Call) : State V A :=
  { s with calls := fun w k ↦ if w = v ∧ k = t then c else s.calls w k }

/-- What a waiting call returns once a datagram is at its socket: the part of the payload
that fits its buffer. -/
def State.result? (s : State V A) (v : V) (t : ℕ) : Option (List UInt8) :=
  match s.calls v t with
  | .waiting n => ((s.net.sock v t).getD []).head?.map fun d ↦ d.payload.take n
  | _ => none

/-- `axrun_rpc` step by step. A call without a reply buffer returns as soon as it has posted
its request; a call returns -1 when the slave's socket is not bound yet and when its wait
is interrupted. -/
def next (al : Allocator V A) (sv : Services) (s : State V A) : Event V → Option (State V A)
  | .begun v t r =>
      if s.calls v t = .idle then
        some { s.setCall v t (.bound r) with net := s.net.bind v t }
      else none
  | .posted v t =>
      match s.calls v t with
      | .bound r =>
          if s.net.inbox v ≠ none then
            let net := s.net.post v ⟨t, r.function, r.payload⟩
            if 0 < r.recvSize then some { s.setCall v t (.waiting r.recvSize) with net := net }
            else some { s.setCall v t .idle with net := net.close v t }
          else none
      | _ => none
  | .refused v t =>
      match s.calls v t with
      | .bound _ =>
          if s.net.inbox v = none then some { s.setCall v t .idle with net := s.net.close v t }
          else none
      | _ => none
  | .interrupted v t =>
      match s.calls v t with
      | .waiting _ => some { s.setCall v t .idle with net := s.net.close v t }
      | _ => none
  | .returned v t =>
      if s.result? v t ≠ none then some { s.setCall v t .idle with net := s.net.close v t }
      else none
  | .relay e => (Relay.next (program al sv) s.net e).map fun net ↦ { s with net := net }

def init (a : A) : State V A where
  net := ⟨fun _ ↦ none, fun _ ↦ [], ⟨a, none⟩, [], fun _ ↦ [], fun _ _ ↦ none⟩
  calls := fun _ _ ↦ .idle

/-! ## Calls and answers -/

/-- What thread `t` of `v` posts at one step. -/
def request (v : V) (t : ℕ) (p : State V A × Event V) : List Msg :=
  if p.2 = .posted v t then
    match p.1.calls v t with
    | .bound r => [⟨t, r.function, r.payload⟩]
    | _ => []
  else []

def requests (tr : List (State V A × Event V)) (v : V) (t : ℕ) : List Msg :=
  tr.flatMap (request v t)

/-- A request of thread `t` of `v` the master receives at one step, with its answer. -/
def exchange (al : Allocator V A) (sv : Services) (v : V) (t : ℕ) (p : State V A × Event V) :
    List (Msg × Msg) :=
  if p.2 = .relay (.received v) then
    match (p.1.net.up v).head? with
    | some m =>
        if m.id = t then
          (Relay.outTo v (masterReceiver al sv v m p.1.net.hub).2).map fun d ↦ (m, d)
        else []
    | none => []
  else []

def exchanges (al : Allocator V A) (sv : Services) (tr : List (State V A × Event V)) (v : V)
    (t : ℕ) : List (Msg × Msg) :=
  tr.flatMap (exchange al sv v t)

/-- The master answers the request it receives at once. -/
def AtOnce (al : Allocator V A) (sv : Services) (s : State V A) : Event V → Prop
  | .relay (.received v) =>
      ∀ m ∈ (s.net.up v).head?, (masterReceiver al sv v m s.net.hub).2 ≠ []
  | _ => True

/-- A call that will wait begins when nothing of an earlier call of its thread is under way. -/
def Clear (s : State V A) : Event V → Prop
  | .begun v t r => 0 < r.recvSize → ∀ m ∈ s.net.upward v ++ s.net.downward v, m.id ≠ t
  | _ => True

instance (al : Allocator V A) (sv : Services) (s : State V A) (e : Event V) :
    Decidable (AtOnce al sv s e) :=
  match e with
  | .relay (.received v) =>
      inferInstanceAs (Decidable (∀ m ∈ (s.net.up v).head?,
        (masterReceiver al sv v m s.net.hub).2 ≠ []))
  | .relay (.opened _) | .relay (.forwarded _) | .relay .sent | .relay (.delivered _)
  | .begun _ _ _ | .posted _ _ | .refused _ _ | .interrupted _ _ | .returned _ _ =>
      .isTrue trivial

instance (s : State V A) (e : Event V) : Decidable (Clear s e) :=
  match e with
  | .begun v t r =>
      inferInstanceAs (Decidable (0 < r.recvSize →
        ∀ m ∈ s.net.upward v ++ s.net.downward v, m.id ≠ t))
  | .posted _ _ | .refused _ _ | .interrupted _ _ | .returned _ _ | .relay _ => .isTrue trivial

section Answers

variable {al : Allocator V A} {sv : Services} {tr : List (State V A × Event V)} {s : State V A}
  {v w : V} {t k : ℕ}

theorem requests_snoc (e : Event V) : requests (tr ++ [(s, e)]) v t =
    requests tr v t ++ request v t (s, e) := by
  simp [requests]

theorem requests_snoc_of_ne {e : Event V} (he : ∀ v t, e ≠ .posted v t) :
    requests (tr ++ [(s, e)]) v t = requests tr v t := by
  simp [requests_snoc, request, he v t]

variable (tr w k) in
theorem requests_snoc_posted {r : Request} (hbound : s.calls v t = .bound r) :
    requests (tr ++ [(s, .posted v t)]) w k =
      requests tr w k ++ if w = v ∧ k = t then [⟨t, r.function, r.payload⟩] else [] := by
  rw [requests_snoc]
  by_cases hw : w = v ∧ k = t
  · obtain ⟨rfl, rfl⟩ := hw
    simp [request, hbound]
  · have hne : (Event.posted v t : Event V) ≠ .posted w k := by
      rintro ⟨⟩
      exact hw ⟨rfl, rfl⟩
    simp [request, hne, hw]

theorem exchanges_snoc (e : Event V) : exchanges al sv (tr ++ [(s, e)]) v t =
    exchanges al sv tr v t ++ exchange al sv v t (s, e) := by
  simp [exchanges]

theorem exchanges_snoc_of_ne {e : Event V} (he : ∀ v, e ≠ .relay (.received v)) :
    exchanges al sv (tr ++ [(s, e)]) v t = exchanges al sv tr v t := by
  simp [exchanges_snoc, exchange, he v]

variable (tr w k) in
theorem exchanges_snoc_received {m d : Msg} (hm : (s.net.up v).head? = some m)
    (hd : (masterReceiver al sv v m s.net.hub).2 = [(v, d)]) :
    exchanges al sv (tr ++ [(s, .relay (.received v))]) w k =
      exchanges al sv tr w k ++ if w = v ∧ k = m.id then [(m, d)] else [] := by
  rw [exchanges_snoc]
  by_cases hw : w = v
  · subst hw
    by_cases hk : k = m.id
    · simp [exchange, hm, hd, hk, Relay.outTo]
    · simp [exchange, hm, hk, Ne.symm hk]
  · simp [exchange, hw, Ne.symm hw]

omit [DecidableEq V] in
/-- The master answers the sender, under the id of the request. -/
theorem masterReceiver_sends (al : Allocator V A) (sv : Services) (v : V) (m : Msg)
    (h : Master V A) : (masterReceiver al sv v m h).2 = [] ∨
      ∃ d, (masterReceiver al sv v m h).2 = [(v, d)] ∧ d.id = m.id := by
  have hreply : ∀ payload reply, sendReply v m payload reply = [] ∨
      ∃ d, sendReply v m payload reply = [(v, d)] ∧ d.id = m.id := by
    rintro payload (_ | _)
    · exact .inl rfl
    · exact .inr ⟨_, rfl, rfl⟩
  unfold masterReceiver
  split
  · obtain ⟨id, function, payload⟩ := m
    cases function with
    | ping => exact hreply payload true
    | alloc => exact hreply _ _
    | getRegions => exact hreply _ _
    | allocShblock => exact hreply _ _
    | unknown n => exact .inl rfl
  · exact .inl rfl

end Answers

/-! ## Answers reach the call that asked -/

def mine (t : ℕ) (m : Msg) : Bool := m.id = t

/-- What holds along a run in which the master answers at once and waiting calls find the
way clear: a waiting call has posted the last request of its thread, and what it has at its
socket or under way to it is the answer to that request. -/
structure Inv (al : Allocator V A) (sv : Services) (tr : List (State V A × Event V))
    (s : State V A) : Prop where
  served : ∀ v, s.net.downward v ≠ [] → sv.rpc = true
  answered : ∀ v t, (exchanges al sv tr v t).map Prod.fst ++ (s.net.upward v).filter (mine t) =
    requests tr v t
  bound : ∀ v t r, s.calls v t = .bound r → 0 < r.recvSize →
    s.net.sock v t = some [] ∧ ∀ m ∈ s.net.upward v ++ s.net.downward v, m.id ≠ t
  waiting : ∀ v t n, s.calls v t = .waiting n →
    0 < (requests tr v t).length ∧
    (requests tr v t).length ≤ (exchanges al sv tr v t).length + 1 ∧
    ∃ q, s.net.sock v t = some q ∧ q ++ (s.net.downward v).filter (mine t) =
      ((exchanges al sv tr v t).drop ((requests tr v t).length - 1)).map Prod.snd

section Invariant

variable {al : Allocator V A} {sv : Services} {tr : List (State V A × Event V)}
  {s s' : State V A} {v : V} {t : ℕ}

theorem inv_init (a : A) : Inv al sv [] (init a : State V A) := by
  refine ⟨fun v hv ↦ ?_, fun v t ↦ ?_, fun v t r hr ↦ ?_, fun v t n hn ↦ ?_⟩
  · simp [init, Relay.Net.downward] at hv
  · simp [init, exchanges, requests, Relay.Net.upward]
  · simp [init] at hr
  · simp [init] at hn

theorem inv_begun (hi : Inv al sv tr s) {r : Request} (hclear : Clear s (.begun v t r))
    (h : next al sv s (.begun v t r) = some s') : Inv al sv (tr ++ [(s, .begun v t r)]) s' := by
  simp only [next, Option.ite_none_right_eq_some, Option.some.injEq] at h
  obtain ⟨hidle, rfl⟩ := h
  have hexchanges : ∀ w k, exchanges al sv (tr ++ [(s, .begun v t r)]) w k =
      exchanges al sv tr w k := fun w k ↦ exchanges_snoc_of_ne (by simp)
  have hrequests : ∀ w k, requests (tr ++ [(s, .begun v t r)]) w k = requests tr w k :=
    fun w k ↦ requests_snoc_of_ne (by simp)
  refine ⟨hi.served, fun w k ↦ ?_, fun w k r' hr' hsize ↦ ?_, fun w k n hn ↦ ?_⟩
  · simpa [hexchanges, hrequests] using hi.answered w k
  · simp only [State.setCall, Relay.Net.bind_sock] at hr' ⊢
    by_cases hw : w = v ∧ k = t
    · obtain ⟨rfl, rfl⟩ := hw
      obtain rfl : r = r' := by simpa using hr'
      exact ⟨by simp, hclear hsize⟩
    · simpa [hw] using hi.bound w k r' (by simpa [hw] using hr') hsize
  · simp only [State.setCall] at hn
    by_cases hw : w = v ∧ k = t
    · simp [hw] at hn
    · simpa [hw, hexchanges, hrequests, Relay.Net.bind_sock] using
        hi.waiting w k n (by simpa [hw] using hn)

/-- A call that ends without posting a request takes its socket with it. -/
theorem Inv.close (hi : Inv al sv tr s) {e : Event V} (he : ∀ v, e ≠ .relay (.received v))
    (he' : ∀ v t, e ≠ .posted v t) (v : V) (t : ℕ) : Inv al sv (tr ++ [(s, e)])
      { s.setCall v t .idle with net := s.net.close v t } := by
  have hexchanges : ∀ w k, exchanges al sv (tr ++ [(s, e)]) w k = exchanges al sv tr w k :=
    fun w k ↦ exchanges_snoc_of_ne he
  have hrequests : ∀ w k, requests (tr ++ [(s, e)]) w k = requests tr w k :=
    fun w k ↦ requests_snoc_of_ne he'
  refine ⟨hi.served, fun w k ↦ ?_, fun w k r hr hsize ↦ ?_, fun w k n hn ↦ ?_⟩
  · simpa [hexchanges, hrequests] using hi.answered w k
  · simp only [State.setCall] at hr
    by_cases hw : w = v ∧ k = t
    · simp [hw] at hr
    · simpa [hw, Relay.Net.close_sock] using hi.bound w k r (by simpa [hw] using hr) hsize
  · simp only [State.setCall] at hn
    by_cases hw : w = v ∧ k = t
    · simp [hw] at hn
    · simpa [hw, hexchanges, hrequests, Relay.Net.close_sock] using
        hi.waiting w k n (by simpa [hw] using hn)

/-- A posted request is the last of its own thread. -/
theorem Inv.answered_post (hi : Inv al sv tr s) {r : Request} (hbound : s.calls v t = .bound r)
    (hinbox : s.net.inbox v ≠ none) (w : V) (k : ℕ) :
    (exchanges al sv (tr ++ [(s, .posted v t)]) w k).map Prod.fst ++
      ((s.net.post v ⟨t, r.function, r.payload⟩).upward w).filter (mine k) =
        requests (tr ++ [(s, .posted v t)]) w k := by
  have hnew : (if w = v then [⟨t, r.function, r.payload⟩] else []).filter (mine k) =
      if w = v ∧ k = t then [⟨t, r.function, r.payload⟩] else [] := by
    by_cases hw : w = v
    · by_cases hk : k = t
      · simp [hw, hk, mine]
      · simp [hw, hk, mine, Ne.symm hk]
    · simp [hw]
  rw [exchanges_snoc_of_ne (by simp), requests_snoc_posted _ _ _ hbound,
    Relay.Net.upward_post _ hinbox, List.filter_append, hnew, ← List.append_assoc,
    hi.answered w k]

/-- A posted request is nothing to the other threads. -/
theorem ne_of_mem_post {m : Msg} (hm : m.id = t) (hinbox : s.net.inbox v ≠ none)
    {w : V} {k : ℕ} (hw : ¬ (w = v ∧ k = t))
    (hclear : ∀ m' ∈ s.net.upward w ++ s.net.downward w, m'.id ≠ k) :
    ∀ m' ∈ (s.net.post v m).upward w ++ s.net.downward w, m'.id ≠ k := by
  intro m' hm'
  rw [Relay.Net.upward_post m hinbox, List.append_assoc, List.mem_append, List.mem_append] at hm'
  rcases hm' with hm' | hm' | hm'
  · exact hclear m' (List.mem_append_left _ hm')
  · split at hm'
    · next hwv =>
        obtain rfl := List.mem_singleton.mp hm'
        rintro rfl
        exact hw ⟨hwv, hm⟩
    · simp at hm'
  · exact hclear m' (List.mem_append_right _ hm')

theorem Inv.post_waiting (hi : Inv al sv tr s) {r : Request} (hbound : s.calls v t = .bound r)
    (hinbox : s.net.inbox v ≠ none) (hsize : 0 < r.recvSize) :
    Inv al sv (tr ++ [(s, .posted v t)]) { s.setCall v t (.waiting r.recvSize) with
      net := s.net.post v ⟨t, r.function, r.payload⟩ } := by
  have hexchanges : ∀ w k, exchanges al sv (tr ++ [(s, .posted v t)]) w k =
      exchanges al sv tr w k := fun w k ↦ exchanges_snoc_of_ne (by simp)
  have hrequests := fun w k ↦ requests_snoc_posted tr w k hbound
  refine ⟨hi.served, hi.answered_post hbound hinbox, fun w k r' hr' hsize' ↦ ?_,
    fun w k n hn ↦ ?_⟩
  · simp only [State.setCall] at hr'
    by_cases hw : w = v ∧ k = t
    · simp [hw] at hr'
    · obtain ⟨hsock, hm⟩ := hi.bound w k r' (by simpa [hw] using hr') hsize'
      exact ⟨hsock, ne_of_mem_post rfl hinbox hw hm⟩
  · simp only [State.setCall] at hn
    by_cases hw : w = v ∧ k = t
    · -- nothing of the thread was under way, so all its requests have been answered
      obtain ⟨rfl, rfl⟩ := hw
      obtain ⟨hsock, hm⟩ := hi.bound w k r hbound hsize
      have hup : (s.net.upward w).filter (mine k) = [] := by
        refine List.filter_eq_nil_iff.mpr fun m hmem ↦ ?_
        simpa [mine] using hm m (List.mem_append_left _ hmem)
      have hdown : (s.net.downward w).filter (mine k) = [] := by
        refine List.filter_eq_nil_iff.mpr fun m hmem ↦ ?_
        simpa [mine] using hm m (List.mem_append_right _ hmem)
      have hlen : (exchanges al sv tr w k).length = (requests tr w k).length := by
        simpa [hup] using congrArg List.length (hi.answered w k)
      refine ⟨by simp [hrequests], by simp [hexchanges, hrequests, hlen], [], hsock, ?_⟩
      simp [hexchanges, hrequests, hdown, ← hlen]
    · simpa [hw, hexchanges, hrequests] using hi.waiting w k n (by simpa [hw] using hn)

theorem Inv.post_close (hi : Inv al sv tr s) {r : Request} (hbound : s.calls v t = .bound r)
    (hinbox : s.net.inbox v ≠ none) :
    Inv al sv (tr ++ [(s, .posted v t)]) { s.setCall v t .idle with
      net := (s.net.post v ⟨t, r.function, r.payload⟩).close v t } := by
  have hexchanges : ∀ w k, exchanges al sv (tr ++ [(s, .posted v t)]) w k =
      exchanges al sv tr w k := fun w k ↦ exchanges_snoc_of_ne (by simp)
  have hrequests := fun w k ↦ requests_snoc_posted tr w k hbound
  refine ⟨hi.served, hi.answered_post hbound hinbox, fun w k r' hr' hsize' ↦ ?_,
    fun w k n hn ↦ ?_⟩
  · simp only [State.setCall] at hr'
    by_cases hw : w = v ∧ k = t
    · simp [hw] at hr'
    · obtain ⟨hsock, hm⟩ := hi.bound w k r' (by simpa [hw] using hr') hsize'
      exact ⟨by simpa [hw, Relay.Net.close_sock] using hsock, ne_of_mem_post rfl hinbox hw hm⟩
  · simp only [State.setCall] at hn
    by_cases hw : w = v ∧ k = t
    · simp [hw] at hn
    · simpa [hw, hexchanges, hrequests, Relay.Net.close_sock] using
        hi.waiting w k n (by simpa [hw] using hn)

theorem inv_posted (hi : Inv al sv tr s) (h : next al sv s (.posted v t) = some s') :
    Inv al sv (tr ++ [(s, .posted v t)]) s' := by
  simp only [next] at h
  split at h
  case h_2 => cases h
  case h_1 r hbound =>
    split at h
    case isFalse => cases h
    case isTrue hinbox =>
      split at h
      case isTrue hsize =>
        cases h
        exact hi.post_waiting hbound hinbox hsize
      case isFalse hsize =>
        cases h
        exact hi.post_close hbound hinbox

theorem inv_silent (hi : Inv al sv tr s) {e : Relay.Event V} (he : ∀ v, e ≠ .received v)
    {net : Relay.Net V ℕ Msg Msg (Master V A)} (h : Relay.Silent s.net net) :
    Inv al sv (tr ++ [(s, .relay e)]) { s with net := net } := by
  have hexchanges : ∀ w k, exchanges al sv (tr ++ [(s, .relay e)]) w k = exchanges al sv tr w k :=
    fun w k ↦ exchanges_snoc_of_ne (by simpa using he)
  have hrequests : ∀ w k, requests (tr ++ [(s, .relay e)]) w k = requests tr w k :=
    fun w k ↦ requests_snoc_of_ne (by simp)
  refine ⟨fun w hw ↦ ?_, fun w k ↦ ?_, fun w k r hr hsize ↦ ?_, fun w k n hn ↦ ?_⟩
  · rw [h.downward] at hw
    exact hi.served w hw
  · simpa [hexchanges, hrequests, h.upward] using hi.answered w k
  · simpa [h.upward, h.downward, h.sock] using hi.bound w k r hr hsize
  · simpa [hexchanges, hrequests, h.downward, h.sock] using hi.waiting w k n hn

/-- The answer joins what is under way to the call that asked. -/
theorem inv_received (hi : Inv al sv tr s) {m : Msg} (hm : (s.net.up v).head? = some m)
    (honce : (masterReceiver al sv v m s.net.hub).2 ≠ [])
    {net : Relay.Net V ℕ Msg Msg (Master V A)}
    (h : Relay.Received (program al sv) v m s.net net) :
    Inv al sv (tr ++ [(s, .relay (.received v))]) { s with net := net } := by
  obtain ⟨d, hd, hid⟩ := (masterReceiver_sends al sv v m s.net.hub).resolve_left honce
  have hrpc : sv.rpc = true := by
    by_contra hoff
    exact honce (by simp [masterReceiver, hoff])
  have hexchanges := fun w k ↦ exchanges_snoc_received tr w k hm hd
  have hrequests : ∀ w k, requests (tr ++ [(s, .relay (.received v))]) w k = requests tr w k :=
    fun w k ↦ requests_snoc_of_ne (by simp)
  have hdownward : ∀ w, net.downward w = s.net.downward w ++ if w = v then [d] else [] := by
    intro w
    rw [h.downward]
    simp only [program, hd]
    by_cases hw : w = v
    · simp [hw, Relay.outTo]
    · simp [hw, Relay.outTo, Ne.symm hw]
  have hupward : ∀ w k, (s.net.upward w).filter (mine k) =
      (if w = v ∧ k = m.id then [m] else []) ++ (net.upward w).filter (mine k) := by
    intro w k
    by_cases hw : w = v
    · subst hw
      by_cases hk : k = m.id
      · simp [h.upward_self, mine, hk]
      · simp [h.upward_self, mine, hk, Ne.symm hk]
    · simp [h.upward_of_ne w hw, hw]
  refine ⟨fun _ _ ↦ hrpc, fun w k ↦ ?_, fun w k r hr hsize ↦ ?_, fun w k n hn ↦ ?_⟩
  · rw [hexchanges, hrequests, ← hi.answered w k, hupward, List.map_append, List.append_assoc]
    split <;> rfl
  · obtain ⟨hsock, hclear⟩ := hi.bound w k r hr hsize
    refine ⟨by rw [h.sock, hsock], fun m' hm' ↦ ?_⟩
    rw [hdownward, List.mem_append, List.mem_append] at hm'
    rcases hm' with hm' | hm' | hm'
    · exact hclear m' (List.mem_append_left _ (h.upward_subset w hm'))
    · exact hclear m' (List.mem_append_right _ hm')
    · split at hm'
      · next hw =>
          subst hw
          rw [List.mem_singleton.mp hm', hid]
          exact hclear m (List.mem_append_left _ h.mem_upward)
      · simp at hm'
  · obtain ⟨hpos, hle, q, hsock, hq⟩ := hi.waiting w k n hn
    have hnew : (if w = v then [d] else []).filter (mine k) =
        (if w = v ∧ k = m.id then [(m, d)] else []).map Prod.snd := by
      by_cases hw : w = v
      · by_cases hk : k = m.id
        · simp [hw, hk, mine, hid]
        · simp [hw, hk, mine, hid, Ne.symm hk]
      · simp [hw]
    refine ⟨by rwa [hrequests], ?_, q, by rw [h.sock, hsock], ?_⟩
    · rw [hrequests, hexchanges, List.length_append]
      omega
    · rw [hrequests, hexchanges, hdownward, List.filter_append, ← List.append_assoc, hq, hnew,
        List.drop_append_of_le_length (by omega), List.map_append]

/-- What reaches the socket of a waiting call is the next of what was under way to it. -/
theorem inv_delivered (hi : Inv al sv tr s) {m : Msg}
    {net : Relay.Net V ℕ Msg Msg (Master V A)}
    (h : Relay.Delivered (program al sv) v m s.net net) :
    Inv al sv (tr ++ [(s, .relay (.delivered v))]) { s with net := net } := by
  have hrpc := hi.served v (List.ne_nil_of_mem h.mem_downward)
  have hexchanges : ∀ w k, exchanges al sv (tr ++ [(s, .relay (.delivered v))]) w k =
      exchanges al sv tr w k := fun w k ↦ exchanges_snoc_of_ne (by simp)
  have hrequests : ∀ w k, requests (tr ++ [(s, .relay (.delivered v))]) w k = requests tr w k :=
    fun w k ↦ requests_snoc_of_ne (by simp)
  have hsock : ∀ w k, net.sock w k = if w = v ∧ k = m.id then (s.net.sock v m.id).map (· ++ [m])
      else s.net.sock w k := by
    have hroute : (program al sv).route m = some (m.id, m) := by
      simp [program, recvThread, Services.slave_eq, hrpc]
    intro w k
    rw [h.sock, hroute]
    exact Relay.Net.put_sock ..
  refine ⟨fun _ _ ↦ hrpc, fun w k ↦ ?_, fun w k r hr hsize ↦ ?_, fun w k n hn ↦ ?_⟩
  · simpa [hexchanges, hrequests, h.upward] using hi.answered w k
  · obtain ⟨hempty, hclear⟩ := hi.bound w k r hr hsize
    have hw : ¬ (w = v ∧ k = m.id) := by
      rintro ⟨rfl, rfl⟩
      exact hclear m (List.mem_append_right _ h.mem_downward) rfl
    refine ⟨by rw [hsock, if_neg hw, hempty], fun m' hm' ↦ hclear m' ?_⟩
    rw [h.upward] at hm'
    exact List.mem_append.mpr ((List.mem_append.mp hm').imp id fun hm ↦ h.downward_subset w hm)
  · obtain ⟨hpos, hle, q, hq, heq⟩ := hi.waiting w k n hn
    simp only [hexchanges, hrequests, hsock]
    refine ⟨hpos, hle, ?_⟩
    by_cases hw : w = v
    · subst hw
      by_cases hk : k = m.id
      · subst hk
        refine ⟨q ++ [m], by simp [hq], ?_⟩
        rw [← heq, h.downward_self]
        simp [mine]
      · refine ⟨q, by simpa [hk] using hq, ?_⟩
        rw [← heq, h.downward_self]
        simp [mine, Ne.symm hk]
    · exact ⟨q, by simpa [hw] using hq, by rw [h.downward_of_ne w hw, heq]⟩

theorem Inv.step (hi : Inv al sv tr s) {e : Event V} (honce : AtOnce al sv s e)
    (hclear : Clear s e) (h : next al sv s e = some s') : Inv al sv (tr ++ [(s, e)]) s' := by
  cases e with
  | begun v t r => exact inv_begun hi hclear h
  | posted v t => exact inv_posted hi h
  | refused v t =>
      simp only [next] at h
      split at h
      · split at h
        · cases h
          exact hi.close (by simp) (by simp) v t
        · cases h
      · cases h
  | interrupted v t =>
      simp only [next] at h
      split at h
      · cases h
        exact hi.close (by simp) (by simp) v t
      · cases h
  | returned v t =>
      simp only [next, Option.ite_none_right_eq_some, Option.some.injEq] at h
      obtain ⟨-, rfl⟩ := h
      exact hi.close (by simp) (by simp) v t
  | relay e =>
      obtain ⟨net, hnet, rfl⟩ := Option.map_eq_some_iff.mp h
      rcases Relay.next_cases hnet with ⟨hs, he⟩ | ⟨v, m, rfl, hm, hrec⟩ | ⟨v, m, rfl, hdel⟩
      · exact inv_silent hi he hs
      · exact inv_received hi hm (honce m hm) hrec
      · exact inv_delivered hi hdel

theorem Inv.exec {a : A} (h : Exec (next al sv) (init a) tr s)
    (hC : Meets (fun s e ↦ AtOnce al sv s e ∧ Clear s e) tr) : Inv al sv tr s :=
  Exec.trace_invariant (I := fun tr s ↦ Inv al sv tr s) (inv_init a)
    (fun _ _ _ _ hi he hnext ↦ hi.step he.1 he.2 hnext) h hC

/-- In a run in which every call that waits begins when nothing of an earlier call of its
thread is under way, a call that returns has the answer to its own request `m`, the last
one its thread has posted. -/
theorem returns_own_answer {a : A} (h : Exec (next al sv) (init a) tr s)
    (hC : Meets (fun s e ↦ AtOnce al sv s e ∧ Clear s e) tr) {n : ℕ} {result : List UInt8}
    (hcall : s.calls v t = .waiting n) (hresult : s.result? v t = some result) :
    ∃ m d, (requests tr v t).getLast? = some m ∧
      (exchanges al sv tr v t)[(requests tr v t).length - 1]? = some (m, d) ∧
      result = d.payload.take n := by
  have hi := Inv.exec h hC
  obtain ⟨hpos, hle, q, hsock, hq⟩ := hi.waiting v t n hcall
  simp only [State.result?, hcall, hsock, Option.getD_some, Option.map_eq_some_iff] at hresult
  obtain ⟨d, hd, rfl⟩ := hresult
  have hhead : ((exchanges al sv tr v t)[(requests tr v t).length - 1]?).map Prod.snd =
      some d := by
    rw [← List.head?_drop, ← List.head?_map, ← hq, List.head?_append, hd]
    rfl
  obtain ⟨⟨m, d'⟩, hpair, rfl⟩ := Option.map_eq_some_iff.mp hhead
  refine ⟨m, d', ?_, hpair, rfl⟩
  -- the requests answered come first among those posted
  have hlt := (List.getElem?_eq_some_iff.mp hpair).1
  rw [List.getLast?_eq_getElem?]
  nth_rewrite 1 [← hi.answered v t]
  rw [List.getElem?_append_left (by simpa using hlt), List.getElem?_map, hpair]
  rfl

end Invariant

def echo : Allocator Unit Unit where
  alloc payload a := (a, payload, true)
  getRegions _ payload a := (a, payload, true)
  allocShblock _ payload a := (a, payload, true)

theorem returns_own_answer_ping : ∃ tr s,
    Exec (next echo (.ofOptions [.profileAll])) (init ()) tr s ∧
    Meets (fun s e ↦ AtOnce echo (.ofOptions [.profileAll]) s e ∧ Clear s e) tr ∧
    s.calls () 7 = .waiting 4 ∧ s.result? () 7 = some [1, 2] ∧
    ∃ m d, (requests tr () 7).getLast? = some m ∧
      (exchanges echo (.ofOptions [.profileAll]) tr () 7)[(requests tr () 7).length - 1]? =
        some (m, d) ∧ [1, 2] = d.payload.take 4 := by
  obtain ⟨tr, s, hexec, hC, hcall, hresult⟩ :
      ∃ tr s, Exec (next echo (.ofOptions [.profileAll])) (init ()) tr s ∧
        Meets (fun s e ↦ AtOnce echo (.ofOptions [.profileAll]) s e ∧ Clear s e) tr ∧
        s.calls () 7 = .waiting 4 ∧ s.result? () 7 = some [1, 2] :=
    Exec.exists_of_run [.relay (.opened ()), .begun () 7 ⟨.ping, [1, 2], 4⟩, .posted () 7,
      .relay (.forwarded ()), .relay (.received ()), .relay .sent, .relay (.delivered ())]
      (by decide +kernel)
  exact ⟨tr, s, hexec, hC, hcall, hresult, returns_own_answer hexec hC hcall hresult⟩

/-- A thread pings without a reply buffer and then with one: the second call returns the
answer to the first. -/
theorem lateAnswer_returned : ∃ tr s, Exec (next echo (.ofOptions [.profileAll])) (init ()) tr s ∧
    Meets (AtOnce echo (.ofOptions [.profileAll])) tr ∧ s.calls () 7 = .waiting 4 ∧
    s.result? () 7 = some [1] ∧
    requests tr () 7 = [⟨7, .ping, [1]⟩, ⟨7, .ping, [2]⟩] ∧
    exchanges echo (.ofOptions [.profileAll]) tr () 7 =
      [(⟨7, .ping, [1]⟩, ⟨7, .ping, [1]⟩), (⟨7, .ping, [2]⟩, ⟨7, .ping, [2]⟩)] :=
  Exec.exists_of_run [.relay (.opened ()), .begun () 7 ⟨.ping, [1], 0⟩, .posted () 7,
    .begun () 7 ⟨.ping, [2], 4⟩, .posted () 7, .relay (.forwarded ()), .relay (.forwarded ()),
    .relay (.received ()), .relay .sent, .relay (.received ()), .relay .sent,
    .relay (.delivered ())] (by decide +kernel)

end AxiomApps.Run.Rpc
