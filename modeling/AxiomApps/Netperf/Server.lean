import AxiomApps.Lib.Workers
import AxiomApps.Netperf.Client

/-!
# The server of axiom-netperf

The server's threads receive messages on one port and pass them, under a mutex, to
`axiom_netperf_reply`, which keeps a record for each node. A session begins with
`AXIOM_CMD_NETPERF_START`; raw and long data follows in `AXIOM_CMD_NETPERF` messages, and an
`AXIOM_CMD_NETPERF_END` goes back when all of it has been received.
-/

namespace AxiomApps.Netperf

open EventSystem
open Threads (entriesOf)
open Workers (Event repliesTo handledOf serve)

/-- `AXIOM_CMD_NETPERF_START`, `AXIOM_CMD_NETPERF_END` and `AXIOM_CMD_NETPERF`. -/
inductive Command
  | start
  | ended
  | netperf
  | other
  deriving DecidableEq, Repr

/-- What the server reads of `axiom_netperf_payload_t`. -/
structure Payload where
  command : Command
  totalBytes : ℕ
  type : NpType
  magic : ℕ
  replyPort : ℕ
  deriving DecidableEq, Repr

structure Msg where
  payload : Payload
  payloadSize : ℕ
  deriving DecidableEq, Repr

/-- `axnetperf_server_t`, the times apart. -/
structure Server where
  expectedBytes : ℕ
  receivedBytes : ℕ
  replyPort : ℕ
  deriving DecidableEq, Repr

/-- An `AXIOM_CMD_NETPERF_END` sent to a port of the client's node. -/
structure Reply where
  port : ℕ
  totalBytes : ℕ
  error : Bool
  deriving DecidableEq, Repr

/-- The mapped RDMA zone, if it can be mapped: the word at each offset. -/
abbrev Zone := Option (ℕ → ℕ)

def axiomNetperfSendReply (server : Server) (errorReport : Bool) : Reply :=
  ⟨server.replyPort, server.receivedBytes, errorReport⟩

/-- Some word of the received part of the zone is not the magic one. -/
def magicFailed (rdmaZone : ℕ → ℕ) (receivedBytes magic : ℕ) : Bool :=
  (List.range receivedBytes).any fun i ↦ i % 8 = 0 ∧ rdmaZone i ≠ magic

def axiomNetperfReply (server : Server) (m : Msg) (zone : Zone) : Server × List Reply :=
  match m.payload.command with
  | .start => (⟨m.payload.totalBytes, 0, m.payload.replyPort⟩, [])
  | .ended =>
      if m.payload.type ≠ .rdma then (server, [])
      else
        let server := { server with receivedBytes := m.payload.totalBytes }
        let failed := match zone with
          | none => true
          | some rdmaZone => magicFailed rdmaZone server.receivedBytes m.payload.magic
        (server, [axiomNetperfSendReply server failed])
  | .netperf =>
      let server := { server with receivedBytes := add64 server.receivedBytes m.payloadSize }
      (server, if server.expectedBytes ≤ server.receivedBytes
        then [axiomNetperfSendReply server false] else [])
  | .other => (server, [])

section System

variable {T V : Type*} [DecidableEq T] [DecidableEq V]

/-- `main` sets the records of all nodes to zero. -/
def serverStart (scripts : V → List Msg) : Workers.State T V Msg Server :=
  Workers.start (fun _ ↦ ⟨0, 0, 0⟩) scripts

/-- The loop of `axnetperf_server`: `take` is `axiom_recv` and `handle` the critical section. -/
def axnetperfServer (s : Workers.State T V Msg Server) (e : Event T V Zone) :
    Option (Workers.State T V Msg Server) :=
  Workers.next axiomNetperfReply s e

end System

/-- What a client sends: one start message, then the announced bytes in order. A message that
holds its command is not empty. -/
def Session (n port : ℕ) (ms : List Msg) : Prop :=
  ∃ m ds, ms = m :: ds ∧ m.payload.command = .start ∧ m.payload.totalBytes = n ∧
    m.payload.replyPort = port ∧
    (∀ d ∈ ds, d.payload.command = .netperf ∧ 0 < d.payloadSize) ∧
    (ds.map Msg.payloadSize).sum = n

/-- Whatever the other clients send, a client that announces `n` bytes is answered once, with
`n`, after its last message was received. -/
def AnsweredOnce (T V : Type*) [DecidableEq T] [Fintype T] [DecidableEq V] [Fintype V] (n : ℕ) :
    Prop :=
  ∀ (scripts : V → List Msg) (v : V) (port : ℕ), Session n port (scripts v) →
    ∀ (tr : List (Workers.State T V Msg Server × Event T V Zone))
      (s : Workers.State T V Msg Server), Exec axnetperfServer (serverStart scripts) tr s →
    tr.length ≤ 3 * ∑ u, (scripts u).length ∧
    (repliesTo axiomNetperfReply v tr = [] ∨
      repliesTo axiomNetperfReply v tr = [⟨port, n, false⟩] ∧
        s.unsent v = [] ∧ entriesOf v s.queue = []) ∧
    ((∀ e, axnetperfServer s e = none) →
      repliesTo axiomNetperfReply v tr = [⟨port, n, false⟩])

/-! ## The messages of a session, in order -/

theorem sum_map_pos {α : Type*} {f : α → ℕ} {l : List α} (h : ∀ a ∈ l, 0 < f a)
    (hne : l ≠ []) : 0 < (l.map f).sum := by
  refine List.sum_pos _ (fun x hx ↦ ?_) (by simpa using hne)
  obtain ⟨a, ha, rfl⟩ := List.mem_map.mp hx
  exact h a ha

/-- The data messages are answered when the last of the announced bytes is there. -/
theorem serve_data {n port : ℕ} (hn : n < 2 ^ 64) {ds : List (Msg × Zone)}
    (hds : ∀ d ∈ ds, d.1.payload.command = .netperf ∧ 0 < d.1.payloadSize) {r : ℕ}
    (hr : r + (ds.map fun d ↦ d.1.payloadSize).sum ≤ n) :
    (serve axiomNetperfReply ⟨n, r, port⟩ ds).2 =
      if ds ≠ [] ∧ r + (ds.map fun d ↦ d.1.payloadSize).sum = n then [⟨port, n, false⟩]
      else [] := by
  induction ds generalizing r with
  | nil => simp [serve]
  | cons d ds ih =>
      obtain ⟨⟨hcommand, hpos⟩, hds⟩ := List.forall_mem_cons.mp hds
      rw [List.map_cons, List.sum_cons] at hr ⊢
      have hsum : add64 r d.1.payloadSize = r + d.1.payloadSize := add64_of_lt (by omega)
      have hstep : axiomNetperfReply ⟨n, r, port⟩ d.1 d.2 = (⟨n, r + d.1.payloadSize, port⟩,
          if n ≤ r + d.1.payloadSize then [⟨port, r + d.1.payloadSize, false⟩] else []) := by
        simp only [axiomNetperfReply, hcommand, hsum]
        rfl
      rw [serve, hstep, ih hds (by omega)]
      by_cases hnil : ds = []
      · subst hnil
        simp only [ne_eq, not_true_eq_false, false_and, if_false, List.append_nil, List.map_nil,
          List.sum_nil, add_zero, reduceCtorEq, not_false_eq_true, true_and] at hr ⊢
        by_cases hlast : r + d.1.payloadSize = n
        · rw [if_pos hlast.ge, if_pos hlast, hlast]
        · rw [if_neg (by omega), if_neg hlast]
      · have hmore := sum_map_pos (fun d hd ↦ (hds d hd).2) hnil
        rw [if_neg (by omega), List.nil_append, add_assoc]
        simp [hnil]

/-- A session of which the messages `ps` have been handled and `ms` have not. -/
theorem serve_session {n port : ℕ} (hn : n < 2 ^ 64) (hpos : n ≠ 0) {ps : List (Msg × Zone)}
    {ms : List Msg} (h : Session n port (ps.map Prod.fst ++ ms)) (server : Server) :
    (serve axiomNetperfReply server ps).2 = if ms = [] then [⟨port, n, false⟩] else [] := by
  obtain ⟨m, ds, hmsgs, hcommand, rfl, rfl, hds, hsum⟩ := h
  cases ps with
  | nil =>
      have hne : ms ≠ [] := by
        rintro rfl
        simp at hmsgs
      rw [if_neg hne]
      rfl
  | cons p ps =>
      rw [List.map_cons, List.cons_append, List.cons.injEq] at hmsgs
      obtain ⟨rfl, rfl⟩ := hmsgs
      have hps : ∀ d ∈ ps, d.1.payload.command = .netperf ∧ 0 < d.1.payloadSize :=
        fun d hd ↦ hds d.1 (List.mem_append_left _ (List.mem_map_of_mem hd))
      have hsplit : (ps.map fun d ↦ d.1.payloadSize).sum + (ms.map Msg.payloadSize).sum =
          p.1.payload.totalBytes := by
        simpa [Function.comp_def] using hsum
      have hstart : axiomNetperfReply server p.1 p.2 =
          (⟨p.1.payload.totalBytes, 0, p.1.payload.replyPort⟩, []) := by
        simp only [axiomNetperfReply, hcommand]
      rw [serve, hstart, List.nil_append, serve_data hn hps (by omega)]
      by_cases hms : ms = []
      · subst hms
        have hne : ps ≠ [] := by
          rintro rfl
          exact hpos hsplit.symm
        rw [if_pos rfl, if_pos ⟨hne, by simpa using hsplit⟩]
      · have hmore : 0 < (ms.map Msg.payloadSize).sum :=
          sum_map_pos (fun d hd ↦ (hds d (List.mem_append_right _ hd)).2) hms
        rw [if_neg hms, if_neg fun h ↦ ?_]
        omega

/-! ## Threads -/

section Threads

variable {T V : Type*} [DecidableEq T] [Fintype T] [Nonempty T] [DecidableEq V] [Fintype V]

/-- One thread handles the messages of each client in the order in which they were sent. -/
theorem answeredOnce_of_subsingleton [Subsingleton T] {n : ℕ} (hn : n < 2 ^ 64) (hpos : n ≠ 0) :
    AnsweredOnce T V n := by
  intro scripts v port hsession tr s hexec
  obtain ⟨t⟩ := ‹Nonempty T›
  have hreplies := Workers.repliesTo_eq hexec v
  have horder := Workers.handledOf_append hexec v t
  rw [← horder, List.append_assoc, List.append_assoc] at hsession
  rw [serve_session hn hpos hsession] at hreplies
  refine ⟨?_, ?_, fun hstuck ↦ ?_⟩
  · have hlength := Workers.length_add_left hexec
    omega
  · rw [hreplies]
    split_ifs with hall
    · simp only [List.append_eq_nil_iff] at hall
      exact .inr ⟨rfl, hall.2.2, hall.2.1⟩
    · exact .inl rfl
  · obtain ⟨hunsent, hqueue, hhand⟩ := Workers.eq_of_stuck hstuck
    rw [hreplies, if_pos (by simp [hunsent, hqueue, hhand, entriesOf])]

/-- A client that announces no bytes gets no answer. -/
theorem not_answeredOnce_zero [Nonempty V] : ¬ AnsweredOnce T V 0 := by
  intro h
  obtain ⟨v⟩ := ‹Nonempty V›
  obtain ⟨t⟩ := ‹Nonempty T›
  obtain ⟨scripts, hscripts⟩ : ∃ scripts : V → List Msg,
    scripts = Function.update (fun _ ↦ []) v [⟨⟨.start, 0, .raw, 0, 0⟩, 1⟩] := ⟨_, rfl⟩
  have hv : scripts v = [⟨⟨.start, 0, .raw, 0, 0⟩, 1⟩] := by rw [hscripts, Function.update_self]
  have hsession : Session 0 0 (scripts v) :=
    ⟨_, _, hv, rfl, rfl, rfl, by simp, rfl⟩
  have h₁ : Exec axnetperfServer (serverStart scripts : Workers.State T V Msg Server) _ _ :=
    .snoc .nil (Workers.next_send hv)
  have h₂ := h₁.snoc (Workers.next_take (t := t) rfl rfl)
  have h₃ := h₂.snoc (Workers.next_handle (Function.update_self ..) none)
  have hanswer := (h scripts v 0 hsession _ _ h₃).2.2 (Workers.next_eq_none ?_ rfl ?_)
  · rw [Workers.repliesTo_eq h₃] at hanswer
    simp [handledOf, Workers.handled, entriesOf, serve, axiomNetperfReply] at hanswer
  · intro u
    by_cases hu : u = v
    · simp [hu]
    · simp [hu, hscripts, serverStart, Workers.start]
  · intro u
    by_cases hu : u = t
    · simp [hu]
    · simp [hu, serverStart, Workers.start]

/-- A session of `n` bytes, one in each message. -/
def byteMessages (n : ℕ) : List Msg :=
  ⟨⟨.start, n, .raw, 0, 1⟩, 125⟩ :: List.replicate n ⟨⟨.netperf, 0, .raw, 0, 0⟩, 1⟩

theorem session_byteMessages (n : ℕ) : Session n 1 (byteMessages n) := by
  refine ⟨_, _, rfl, rfl, rfl, rfl, fun d hd ↦ ?_, by simp⟩
  rw [List.eq_of_mem_replicate hd]
  exact ⟨rfl, Nat.one_pos⟩

omit [Nonempty T] in
/-- Of two threads one can handle the first byte before the other handles the start message. -/
theorem not_answeredOnce_of_nontrivial [Nontrivial T] [Nonempty V] {n : ℕ} (hpos : n ≠ 0) :
    ¬ AnsweredOnce T V n := by
  intro h
  obtain ⟨v⟩ := ‹Nonempty V›
  obtain ⟨k, rfl⟩ := Nat.exists_eq_succ_of_ne_zero hpos
  obtain ⟨tr, s, hexec, hhandled⟩ := Workers.exists_overtaking (T := T) (v := v) axiomNetperfReply
    (fun _ ↦ ⟨0, 0, 0⟩) (fun _ ↦ byteMessages (k + 1)) rfl none
  have hreply : repliesTo axiomNetperfReply v tr = [⟨0, 1, false⟩] := by
    rw [Workers.repliesTo_eq hexec, hhandled]
    rfl
  obtain ⟨-, hanswer, -⟩ := h _ v 1 (session_byteMessages _) tr s hexec
  rw [hreply] at hanswer
  simp at hanswer

end Threads

/-- A session of two bytes in two messages. -/
def twoMessages : List Msg :=
  [⟨⟨.start, 2, .raw, 0, 7⟩, 125⟩, ⟨⟨.netperf, 0, .raw, 0, 0⟩, 1⟩, ⟨⟨.netperf, 0, .raw, 0, 0⟩, 1⟩]

end AxiomApps.Netperf
