import AxiomApps.Lib.Execution
import AxiomApps.Run.Rpc

/-!
# Postponed allocation replies

A request `AXRUN_RPC_ALLOC` the allocator cannot answer at once is left with `axiom-init`,
whose answer `AXIOM_CMD_ALLOC_REPLY` comes later. Meanwhile `rpc_service` keeps the node and
the header of the request, to reply with them, in a single record. The requests without an
answer are part of the state; they are answered in order.
-/

namespace AxiomApps.Run.AllocReply

open EventSystem
open Rpc (Allocator Function Master Msg masterReceiver)

/-- What the reply record keeps of `header_t`. -/
structure Header where
  id : ℕ
  function : Function
  size : ℕ
  deriving DecidableEq, Repr

def headerOf (m : Msg) : Header := ⟨m.id, m.function, m.payload.length⟩

/-- A message sent by `rpc_send_reply`. -/
structure Reply (V : Type*) where
  node : V
  header : Header
  payload : List UInt8
  deriving DecidableEq, Repr

/-- The allocator, and `axiom_al2_alloc_reply`, which gives what is to be sent, or nothing. -/
structure Library (V A : Type*) extends Allocator V A where
  allocReply : List UInt8 → A → A × Option (List UInt8)

structure State (V A : Type*) where
  master : Master V A
  waiting : List (V × Msg)

inductive Event (V : Type*)
  | rpc (v : V) (m : Msg)
  | allocReply (msg : List UInt8)
  deriving DecidableEq

variable {V A : Type*}

/-- `rpc_send_reply`; the record is 0 before the first request is postponed. -/
def rpcSendReply (zero : V) (h : Master V A) (info : List UInt8) : Reply V :=
  match h.rpcReply with
  | some (v, m) => ⟨v, headerOf m, info⟩
  | none => ⟨zero, ⟨0, .unknown 0, 0⟩, info⟩

/-- `rpc_service` on `AXIOM_CMD_ALLOC_REPLY`. -/
def rpcServiceReply (al : Library V A) (zero : V) (msg : List UInt8) (h : Master V A) :
    Master V A × Option (Reply V) :=
  let r := al.allocReply msg h.al2
  ({ h with al2 := r.1 }, r.2.map (rpcSendReply zero h))

/-- The request is left without an answer. -/
def Postponed (al : Library V A) (sv : Services) (m : Msg) (h : Master V A) : Prop :=
  sv.rpc = true ∧ m.function = .alloc ∧ (al.alloc m.payload h.al2).2.2 = false

instance (al : Library V A) (sv : Services) (m : Msg) (h : Master V A) :
    Decidable (Postponed al sv m h) :=
  inferInstanceAs (Decidable (_ ∧ _))

/-- Messages as `master_receiver` takes them. An answer completes the oldest request. -/
def next (al : Library V A) (sv : Services) (zero : V) (s : State V A) :
    Event V → Option (State V A)
  | .rpc v m =>
      some ⟨(masterReceiver al.toAllocator sv v m s.master).1,
        s.waiting ++ if Postponed al sv m s.master then [(v, m)] else []⟩
  | .allocReply msg =>
      if sv.rpc = true then
        let r := rpcServiceReply al zero msg s.master
        if r.2 = none then some { s with master := r.1 }
        else if s.waiting = [] then none
        else some ⟨r.1, s.waiting.tail⟩
      else some s

def init (a : A) : State V A := ⟨⟨a, none⟩, []⟩

/-- The request a step leaves without an answer. -/
def postponed (al : Library V A) (sv : Services) (p : State V A × Event V) : List (V × Msg) :=
  match p.2 with
  | .rpc v m => if Postponed al sv m p.1.master then [(v, m)] else []
  | .allocReply _ => []

/-- The reply `rpc_send_reply` sends at a step. -/
def reply (al : Library V A) (sv : Services) (zero : V) (p : State V A × Event V) :
    List (Reply V) :=
  match p.2 with
  | .rpc _ _ => []
  | .allocReply msg =>
      if sv.rpc = true then (rpcServiceReply al zero msg p.1.master).2.toList else []

def requests (al : Library V A) (sv : Services) (tr : List (State V A × Event V)) :
    List (V × Msg) :=
  tr.flatMap (postponed al sv)

def replies (al : Library V A) (sv : Services) (zero : V) (tr : List (State V A × Event V)) :
    List (Reply V) :=
  tr.flatMap (reply al sv zero)

/-- The node and the header a reply to a request has to carry. -/
def address (q : V × Msg) : V × Header := (q.1, headerOf q.2)

/-- A request is left without an answer only when there is no other. -/
def Alone (al : Library V A) (sv : Services) (s : State V A) : Event V → Prop
  | .rpc _ m => Postponed al sv m s.master → s.waiting = []
  | .allocReply _ => True

instance (al : Library V A) (sv : Services) (s : State V A) (e : Event V) :
    Decidable (Alone al sv s e) :=
  match e with
  | .rpc _ m => inferInstanceAs (Decidable (Postponed al sv m s.master → s.waiting = []))
  | .allocReply _ => isTrue trivial

/-! ## The record -/

section Invariant

variable {al : Library V A} {sv : Services} {zero : V} {tr : List (State V A × Event V)}
  {s s' : State V A} {e : Event V}

theorem rpcReply_masterReceiver (v : V) (m : Msg) (h : Master V A) :
    (masterReceiver al.toAllocator sv v m h).1.rpcReply =
      if Postponed al sv m h then some (v, m) else h.rpcReply := by
  rw [masterReceiver]
  split_ifs with hsv hpost hpost
  · obtain ⟨-, hfunction, hreply⟩ := hpost
    simp [Rpc.rpcService, hfunction, hreply]
  · cases hfunction : m.function with
    | alloc =>
        have hreply : (al.alloc m.payload h.al2).2.2 = true := by
          by_contra hno
          exact hpost ⟨hsv, hfunction, by simpa using hno⟩
        simp [Rpc.rpcService, hfunction, hreply]
    | ping => simp [Rpc.rpcService, hfunction]
    | getRegions => simp [Rpc.rpcService, hfunction]
    | allocShblock => simp [Rpc.rpcService, hfunction]
    | unknown n => simp [Rpc.rpcService, hfunction]
  · exact absurd hpost.1 hsv
  · rfl

/-- While the requests come alone the record is that of the request that waits, and replies
and waiting requests make up the requests. -/
structure Inv (al : Library V A) (sv : Services) (zero : V) (tr : List (State V A × Event V))
    (s : State V A) : Prop where
  record : ∀ q ∈ s.waiting, s.waiting = [q] ∧ s.master.rpcReply = some q
  balance : (replies al sv zero tr).map (fun r ↦ (r.node, r.header)) ++ s.waiting.map address =
    (requests al sv tr).map address

theorem inv_init (a : A) : Inv al sv zero [] (init a) :=
  ⟨by simp [init], rfl⟩

theorem replies_append (p : State V A × Event V) :
    replies al sv zero (tr ++ [p]) = replies al sv zero tr ++ reply al sv zero p := by
  simp [replies]

theorem requests_append (p : State V A × Event V) :
    requests al sv (tr ++ [p]) = requests al sv tr ++ postponed al sv p := by
  simp [requests]

theorem Inv.rpc (hinv : Inv al sv zero tr s) {v : V} {m : Msg} (halone : Alone al sv s (.rpc v m)) :
    Inv al sv zero (tr ++ [(s, .rpc v m)])
      ⟨(masterReceiver al.toAllocator sv v m s.master).1,
        s.waiting ++ if Postponed al sv m s.master then [(v, m)] else []⟩ := by
  have hrecord : (masterReceiver al.toAllocator sv v m s.master).1.rpcReply =
      if Postponed al sv m s.master then some (v, m) else s.master.rpcReply :=
    rpcReply_masterReceiver v m s.master
  constructor
  · intro q hq
    dsimp only at hq ⊢
    rw [hrecord]
    split_ifs at hq ⊢ with hpost
    · rw [halone hpost, List.nil_append, List.mem_singleton] at hq
      rw [halone hpost, hq]
      exact ⟨rfl, rfl⟩
    · rw [List.append_nil] at hq ⊢
      exact hinv.record q hq
  · rw [replies_append, requests_append, List.map_append, List.map_append, List.map_append,
      ← hinv.balance]
    simp [reply, postponed]

/-- The oldest request is the one in the record. -/
theorem Inv.complete (hinv : Inv al sv zero tr s) {msg : List UInt8} (hsv : sv.rpc = true)
    {r : Reply V} (hr : (rpcServiceReply al zero msg s.master).2 = some r)
    (hne : s.waiting ≠ []) :
    Inv al sv zero (tr ++ [(s, .allocReply msg)])
      ⟨(rpcServiceReply al zero msg s.master).1, s.waiting.tail⟩ := by
  obtain ⟨q, hq⟩ := List.exists_mem_of_ne_nil s.waiting hne
  obtain ⟨hwaiting, hrecord⟩ := hinv.record q hq
  have haddress : (r.node, r.header) = address q := by
    obtain ⟨info, -, rfl⟩ := Option.map_eq_some_iff.mp hr
    simp [rpcSendReply, hrecord, address]
  constructor
  · simp [hwaiting]
  · have hbalance := hinv.balance
    rw [hwaiting] at hbalance
    rw [replies_append, requests_append, List.map_append, List.map_append, ← hbalance]
    simp [reply, postponed, hsv, hr, hwaiting, haddress]

theorem inv_step (hinv : Inv al sv zero tr s) (halone : Alone al sv s e)
    (hnext : next al sv zero s e = some s') : Inv al sv zero (tr ++ [(s, e)]) s' := by
  cases e with
  | rpc v m =>
      cases hnext
      exact hinv.rpc halone
  | allocReply msg =>
      simp only [next] at hnext
      split_ifs at hnext with hsv hnone hempty
      · cases hnext
        refine ⟨hinv.record, ?_⟩
        rw [replies_append, requests_append, List.map_append, List.map_append, ← hinv.balance]
        simp [reply, postponed, hnone]
      · cases hnext
        obtain ⟨r, hr⟩ := Option.ne_none_iff_exists'.mp hnone
        exact hinv.complete hsv hr hempty
      · cases hnext
        refine ⟨hinv.record, ?_⟩
        rw [replies_append, requests_append, List.map_append, List.map_append, ← hinv.balance]
        simp [reply, postponed, hsv]

end Invariant

/-- If no request is postponed while another has no answer yet, then the replies carry the
nodes and the headers of the requests, in order, and the requests that are left are those
without an answer. -/
theorem replies_own_requests (al : Library V A) (sv : Services) (zero : V) (a : A)
    {tr : List (State V A × Event V)} {s : State V A}
    (h : Exec (next al sv zero) (init a) tr s) (halone : Meets (Alone al sv) tr) :
    (replies al sv zero tr).map (fun r ↦ (r.node, r.header)) ++ s.waiting.map address =
      (requests al sv tr).map address := by
  have hinv : Inv al sv zero tr s :=
    h.trace_invariant (inv_init a) (fun _ _ _ _ hinv he hnext ↦ inv_step hinv he hnext) halone
  exact hinv.balance

/-- An allocator that postpones every request and passes on what it is sent. -/
def deferring : Library ℕ Unit where
  alloc payload a := (a, payload, false)
  getRegions _ payload a := (a, payload, true)
  allocShblock _ payload a := (a, payload, true)
  allocReply msg a := (a, some msg)

/-- Requests of nodes 1 and 2, the second after the answer to the first. -/
theorem replies_own_requests_alternating :
    ∃ tr s, Exec (next deferring (.ofOptions [.rpc]) 0) (init ()) tr s ∧
      Meets (Alone deferring (.ofOptions [.rpc])) tr ∧
      (requests deferring (.ofOptions [.rpc]) tr).map address =
        [(1, ⟨10, .alloc, 1⟩), (2, ⟨20, .alloc, 1⟩)] ∧ s.waiting = [] ∧
      (replies deferring (.ofOptions [.rpc]) 0 tr).map (fun r ↦ (r.node, r.header)) =
        [(1, ⟨10, .alloc, 1⟩), (2, ⟨20, .alloc, 1⟩)] := by
  obtain ⟨tr, s, hexec, halone, hrequests, hwaiting⟩ :
      ∃ tr s, Exec (next deferring (.ofOptions [.rpc]) 0) (init ()) tr s ∧
        Meets (Alone deferring (.ofOptions [.rpc])) tr ∧
        (requests deferring (.ofOptions [.rpc]) tr).map address =
          [(1, ⟨10, .alloc, 1⟩), (2, ⟨20, .alloc, 1⟩)] ∧ s.waiting = [] :=
    Exec.exists_of_run [.rpc 1 ⟨10, .alloc, [7]⟩, .allocReply [8], .rpc 2 ⟨20, .alloc, [9]⟩,
      .allocReply [8]] (by decide)
  have hbalance := replies_own_requests deferring _ 0 () hexec halone
  rw [hwaiting, hrequests, List.map_nil, List.append_nil] at hbalance
  exact ⟨tr, s, hexec, halone, hrequests, hwaiting, hbalance⟩

/-- Both requests come before the answers: node 2 gets two replies and node 1 none. -/
theorem replies_to_last :
    ∃ tr s, Exec (next deferring (.ofOptions [.rpc]) 0) (init ()) tr s ∧
      Meets (fun _ _ ↦ True) tr ∧
      requests deferring (.ofOptions [.rpc]) tr =
        [(1, ⟨10, .alloc, [7]⟩), (2, ⟨20, .alloc, [9]⟩)] ∧ s.waiting = [] ∧
      replies deferring (.ofOptions [.rpc]) 0 tr =
        [⟨2, ⟨20, .alloc, 1⟩, [8]⟩, ⟨2, ⟨20, .alloc, 1⟩, [8]⟩] :=
  Exec.exists_of_run [.rpc 1 ⟨10, .alloc, [7]⟩, .rpc 2 ⟨20, .alloc, [9]⟩, .allocReply [8],
    .allocReply [8]] (by decide)

end AxiomApps.Run.AllocReply
