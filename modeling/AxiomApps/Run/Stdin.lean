import AxiomApps.Lib.Execution
import AxiomApps.Run.Services

/-!
# Standard input of the children

`master_sender` reads the input of axiom-run and sends each piece to all slaves. The `recv_thread`
of a slave writes it into a pipe its child reads, and handles no other message until all of it
is written.
-/

namespace AxiomApps.Run.Stdin

open EventSystem

/-! ## The programs -/

/-- `CMD_RECV_FROM_STDIN`, `CMD_KILL`, and the commands of barriers and remote calls. -/
inductive Msg
  | recvFromStdin (raw : List UInt8)
  | kill
  | other
  deriving DecidableEq, Repr

def Msg.bytes : Msg → List UInt8
  | .recvFromStdin raw => raw
  | .kill | .other => []

inductive RecvThread
  | selecting
  /-- in `output`, with the bytes still to be written -/
  | writing (rest : List UInt8)
  | ended
  deriving DecidableEq, Repr

def RecvThread.rest : RecvThread → List UInt8
  | .writing rest => rest
  | .selecting | .ended => []

@[simp] theorem RecvThread.rest_selecting : RecvThread.selecting.rest = [] := rfl

@[simp] theorem RecvThread.rest_writing (rest : List UInt8) :
    (RecvThread.writing rest).rest = rest := rfl

/-- `output` with nothing to write returns. -/
def RecvThread.output (rest : List UInt8) : RecvThread :=
  if rest = [] then .selecting else .writing rest

theorem RecvThread.output_ne_ended (rest : List UInt8) : output rest ≠ .ended := by
  rw [output]
  split_ifs <;> simp

@[simp] theorem RecvThread.rest_output (rest : List UInt8) :
    (RecvThread.output rest).rest = rest := by
  by_cases h : rest = [] <;> simp [output, h]

/-- A slave: the messages on their way to it, its thread, the pipe to its child and whether the
child has it open, what the child has read, and whether the child was sent a signal. -/
structure Slave where
  link : List Msg
  thread : RecvThread
  pipe : List UInt8
  opened : Bool
  got : List UInt8
  killed : Bool

inductive SlaveEvent
  | handled
  | wrote (size : ℕ)
  | writeFailed
  | threadEnded
  | childRead (size : ℕ)
  | childClosed
  deriving DecidableEq, Repr

/-- The services of the master, and the sizes of `buffer.raw` and of a pipe. -/
structure Config (V : Type*) where
  nodes : Nodes V
  services : Services
  rawSize : ℕ
  pipeSize : ℕ
  raw_pos : 0 < rawSize
  pipe_pos : 0 < pipeSize

variable {V : Type*}

/-- One turn of `recv_thread`. -/
def recvThread (cfg : Config V) (n : Slave) : Msg → Slave
  | .recvFromStdin raw =>
      if cfg.services.slave.redirect then { n with thread := .output raw } else n
  | .kill =>
      if cfg.services.slave.exit || cfg.services.slave.kill then { n with killed := true } else n
  | .other => n

/-- `write` blocks as long as there is no room in the pipe, and fails once the child has closed
it. -/
def Slave.next (cfg : Config V) (n : Slave) : SlaveEvent → Option Slave
  | .handled =>
      match n.thread, n.link with
      | .selecting, m :: link => some (recvThread cfg { n with link := link } m)
      | _, _ => none
  | .wrote size =>
      match n.thread with
      | .writing rest =>
          if n.opened ∧ 0 < size ∧ size ≤ rest.length ∧ n.pipe.length + size ≤ cfg.pipeSize then
            some { n with
              pipe := n.pipe ++ rest.take size
              thread := .output (rest.drop size) }
          else none
      | _ => none
  | .writeFailed =>
      match n.thread with
      | .writing _ => if n.opened then none else some { n with thread := .selecting }
      | _ => none
  | .threadEnded => if n.thread = .selecting then some { n with thread := .ended } else none
  | .childRead size =>
      if n.opened ∧ 0 < size ∧ size ≤ n.pipe.length then
        some { n with got := n.got ++ n.pipe.take size, pipe := n.pipe.drop size }
      else none
  | .childClosed => if n.opened then some { n with opened := false } else none

inductive Sender (V : Type*)
  | selecting
  /-- in `my_axiom_send_raw`, with the nodes still to be sent to -/
  | sending (raw : List UInt8) (todo : List V)
  | ended
  deriving DecidableEq, Repr

/-- `read` is what the master has read so far. -/
structure State (V : Type*) where
  sender : Sender V
  read : List UInt8
  slave : V → Slave

inductive Event (V : Type*)
  | read (raw : List UInt8)
  | sent (ok : Bool)
  | senderEnded
  | commandSent (v : V) (kill : Bool)
  | slave (v : V) (e : SlaveEvent)
  deriving DecidableEq, Repr

variable [DecidableEq V]

def State.deliver (s : State V) (v : V) (m : Msg) : State V :=
  { s with slave := Function.update s.slave v { s.slave v with link := (s.slave v).link ++ [m] } }

/-- At the end of its input the master reads on, and gets nothing. -/
def next (cfg : Config V) (s : State V) : Event V → Option (State V)
  | .read raw =>
      if s.sender = .selecting ∧ raw ≠ [] ∧ raw.length ≤ cfg.rawSize then
        some { s with sender := .sending raw cfg.nodes.toList, read := s.read ++ raw }
      else none
  | .sent ok =>
      match s.sender with
      | .sending raw (v :: todo) =>
          let s := { s with sender := if todo = [] then .selecting else .sending raw todo }
          some (if ok then s.deliver v (.recvFromStdin raw) else s)
      | _ => none
  | .senderEnded => if s.sender = .selecting then some { s with sender := .ended } else none
  | .commandSent v kill => some (s.deliver v (if kill then .kill else .other))
  | .slave v e =>
      ((s.slave v).next cfg e).map fun n ↦ { s with slave := Function.update s.slave v n }

def init : State V := ⟨.selecting, [], fun _ ↦ ⟨[], .selecting, [], true, [], false⟩⟩

/-- The sends of input succeed. -/
def Lossless (_ : State V) (e : Event V) : Prop := e ≠ .sent false

/-- The sends of input succeed, no other command is sent and no thread is ended. -/
def InputOnly (_ : State V) : Event V → Prop
  | .sent ok => ok = true
  | .commandSent _ _ | .slave _ .threadEnded => False
  | _ => True

omit [DecidableEq V] in
theorem InputOnly.lossless {s : State V} {e : Event V} (h : InputOnly s e) : Lossless s e := by
  rintro rfl
  cases h

/-! ## What a slave does with its bytes -/

namespace Slave

variable {cfg : Config V} {n n' : Slave} {e : SlaveEvent}

/-- What the child has got and what is on its way to it, in order. -/
def total (n : Slave) : List UInt8 :=
  n.got ++ n.pipe ++ n.thread.rest ++ n.link.flatMap Msg.bytes

def Alive (n : Slave) : Prop := n.opened = true ∧ n.thread ≠ .ended

omit [DecidableEq V]

/-- What a slave can do. -/
theorem next_cases (hredirect : cfg.services.redirect = true) (h : n.next cfg e = some n') :
    (e = .handled ∧ n.thread = .selecting ∧ ∃ raw link, n.link = .recvFromStdin raw :: link ∧
      n' = { n with link := link, thread := .output raw }) ∨
    (e = .handled ∧ n.thread = .selecting ∧ ∃ m link killed, n.link = m :: link ∧ m.bytes = [] ∧
      n' = { n with link := link, killed := killed }) ∨
    (∃ size rest, n.opened = true ∧ n.thread = .writing rest ∧ 0 < size ∧
      n.pipe.length + size ≤ cfg.pipeSize ∧
      n' = { n with pipe := n.pipe ++ rest.take size, thread := .output (rest.drop size) }) ∨
    (n.opened = false ∧ n' = { n with thread := .selecting }) ∨
    (n.thread = .selecting ∧ n' = { n with thread := .ended }) ∨
    (∃ size, e = .childRead size ∧
      n' = { n with got := n.got ++ n.pipe.take size, pipe := n.pipe.drop size }) ∨
    (e = .childClosed ∧ n' = { n with opened := false }) := by
  cases e with
  | handled =>
      simp only [next] at h
      split at h
      · next m link hthread hlink =>
          cases h
          cases m with
          | recvFromStdin raw =>
              refine .inl ⟨rfl, hthread, raw, link, hlink, ?_⟩
              rw [recvThread, Services.slave_eq, if_pos hredirect]
          | kill =>
              rw [recvThread]
              split_ifs
              · exact .inr (.inl ⟨rfl, hthread, .kill, link, true, hlink, rfl, rfl⟩)
              · exact .inr (.inl ⟨rfl, hthread, .kill, link, n.killed, hlink, rfl, rfl⟩)
          | other => exact .inr (.inl ⟨rfl, hthread, .other, link, n.killed, hlink, rfl, rfl⟩)
      · cases h
  | wrote size =>
      simp only [next] at h
      split at h
      · next rest hthread =>
          obtain ⟨⟨hopened, hpos, -, hroom⟩, rfl⟩ := by
            simpa only [Option.ite_none_right_eq_some, Option.some.injEq] using h
          exact .inr (.inr (.inl ⟨size, rest, hopened, hthread, hpos, hroom, rfl⟩))
      · cases h
  | writeFailed => grind [next]
  | threadEnded => grind [next]
  | childRead size => grind [next]
  | childClosed => grind [next]

/-- A slave that is still alive was so before, and its bytes are the same in the same order. Only
such a slave puts bytes into its pipe. -/
theorem next_spec (hredirect : cfg.services.redirect = true) (h : n.next cfg e = some n') :
    (n'.Alive → n.Alive ∧ n'.total = n.total) ∧
      (n'.got ++ n'.pipe = n.got ++ n.pipe ∨ n'.Alive) := by
  obtain ⟨-, hthread, raw, link, hlink, rfl⟩ | ⟨-, -, m, link, killed, hlink, hm, rfl⟩ |
    ⟨size, rest, hopened, hthread, -, -, rfl⟩ | ⟨hclosed, rfl⟩ | ⟨-, rfl⟩ | ⟨size, -, rfl⟩ |
    ⟨-, rfl⟩ := next_cases hredirect h
  · refine ⟨fun halive ↦ ⟨⟨halive.1, by simp [hthread]⟩, ?_⟩, .inl rfl⟩
    simp [total, hthread, hlink, Msg.bytes]
  · refine ⟨fun halive ↦ ⟨halive, ?_⟩, .inl rfl⟩
    simp [total, hlink, hm]
  · refine ⟨fun _ ↦ ⟨⟨hopened, by simp [hthread]⟩, ?_⟩,
      .inr ⟨hopened, RecvThread.output_ne_ended _⟩⟩
    simp [total, hthread]
  · exact ⟨fun halive ↦ by simp [Alive, hclosed] at halive, .inl rfl⟩
  · exact ⟨fun halive ↦ absurd rfl halive.2, .inl rfl⟩
  · refine ⟨fun halive ↦ ⟨halive, ?_⟩, .inl (by simp)⟩
    simp [total]
  · exact ⟨fun halive ↦ absurd halive.1 (by simp), .inl rfl⟩

/-- A thread in `output` has something to write. -/
theorem rest_ne_nil (hredirect : cfg.services.redirect = true) (h : n.next cfg e = some n')
    (hn : ∀ rest, n.thread = .writing rest → rest ≠ []) :
    ∀ rest, n'.thread = .writing rest → rest ≠ [] := by
  have houtput : ∀ raw rest, RecvThread.output raw = .writing rest → rest ≠ [] := by
    intro raw rest heq
    rw [RecvThread.output] at heq
    split_ifs at heq with hraw
    cases heq
    exact hraw
  obtain ⟨-, -, raw, link, -, rfl⟩ | ⟨-, -, m, link, killed, -, -, rfl⟩ |
    ⟨size, rest, -, -, -, -, rfl⟩ | ⟨-, rfl⟩ | ⟨-, rfl⟩ | ⟨size, -, rfl⟩ | ⟨-, rfl⟩ :=
    next_cases hredirect h
  · exact houtput raw
  · exact hn
  · exact houtput _
  · simp
  · simp
  · exact hn
  · exact hn

end Slave

/-! ## All children get the same -/

/-- What the master has read and not yet sent to a node. -/
def Sender.owes (sd : Sender V) (v : V) : List UInt8 :=
  match sd with
  | .sending raw todo => if v ∈ todo then raw else []
  | .selecting | .ended => []

structure Inv (s : State V) : Prop where
  todo : ∀ raw todo, s.sender = .sending raw todo → todo.Nodup
  kept : ∀ v, (s.slave v).Alive → (s.slave v).total ++ s.sender.owes v = s.read
  got : ∀ v, (s.slave v).got ++ (s.slave v).pipe <+: s.read
  writing : ∀ v rest, (s.slave v).thread = .writing rest → rest ≠ []

variable {cfg : Config V} {s s' : State V} {tr : List (State V × Event V)}

theorem inv_init : Inv (init : State V) where
  todo := by simp [init]
  kept v _ := by simp [init, Slave.total, Sender.owes]
  got v := by simp [init]
  writing v := by simp [init]

namespace Inv

theorem deliver (hi : Inv s) {sd : Sender V} {v : V} {m : Msg}
    (htodo : ∀ raw todo, sd = .sending raw todo → todo.Nodup)
    (hv : m.bytes ++ sd.owes v = s.sender.owes v)
    (hw : ∀ w, w ≠ v → sd.owes w = s.sender.owes w) :
    Inv ({ s with sender := sd }.deliver v m) where
  todo := htodo
  kept w := by
    by_cases hwv : w = v
    · subst hwv
      simp only [State.deliver, Function.update_self]
      intro halive
      rw [← hi.kept w halive, ← hv]
      simp [Slave.total]
    · simp only [State.deliver, Function.update_of_ne hwv]
      intro halive
      rw [hw w hwv]
      exact hi.kept w halive
  got w := by
    by_cases hwv : w = v
    · subst hwv
      simpa [State.deliver] using hi.got w
    · simpa [State.deliver, hwv] using hi.got w
  writing w := by
    by_cases hwv : w = v
    · subst hwv
      simpa [State.deliver] using hi.writing w
    · simpa [State.deliver, hwv] using hi.writing w

theorem slave (hi : Inv s) (hredirect : cfg.services.redirect = true) {v : V} {e : SlaveEvent}
    {n : Slave} (h : (s.slave v).next cfg e = some n) :
    Inv { s with slave := Function.update s.slave v n } := by
  obtain ⟨halive, hgot⟩ := Slave.next_spec hredirect h
  have hkept : n.Alive → n.total ++ s.sender.owes v = s.read := by
    intro hn
    rw [(halive hn).2]
    exact hi.kept v (halive hn).1
  refine ⟨hi.todo, fun w ↦ ?_, fun w ↦ ?_, fun w ↦ ?_⟩
  · by_cases hwv : w = v
    · subst hwv
      simpa using hkept
    · simpa [hwv] using hi.kept w
  · by_cases hwv : w = v
    · subst hwv
      simp only [Function.update_self]
      rcases hgot with hsame | hn
      · rw [hsame]
        exact hi.got w
      · rw [← hkept hn, Slave.total]
        simp only [List.append_assoc, List.prefix_append_right_inj]
        exact List.prefix_append _ _
    · simpa [hwv] using hi.got w
  · by_cases hwv : w = v
    · subst hwv
      simpa using Slave.rest_ne_nil hredirect h (hi.writing w)
    · simpa [hwv] using hi.writing w

theorem step (hi : Inv s) (hredirect : cfg.services.redirect = true) {e : Event V}
    (he : Lossless s e) (h : next cfg s e = some s') : Inv s' := by
  cases e with
  | read raw =>
      obtain ⟨⟨hsender, -⟩, rfl⟩ := by simpa only [next, Option.ite_none_right_eq_some,
        Option.some.injEq] using h
      refine ⟨?_, fun v halive ↦ ?_, fun v ↦ (hi.got v).trans (List.prefix_append _ _), hi.writing⟩
      · rintro _ _ ⟨⟩
        exact cfg.nodes.nodup
      · have hkept := hi.kept v halive
        simp only [hsender, Sender.owes, List.append_nil] at hkept
        simp [Sender.owes, cfg.nodes.mem v, hkept]
  | sent ok =>
      obtain rfl : ok = true := by
        by_contra hok
        exact he (by simp [hok])
      simp only [next] at h
      split at h
      · next raw v todo hsender =>
          cases h
          have hnodup := List.nodup_cons.mp (hi.todo _ _ hsender)
          have howes : ∀ w, Sender.owes (if todo = [] then .selecting else .sending raw todo) w =
              if w ∈ todo then raw else [] := by
            intro w
            by_cases htodo : todo = [] <;> simp [htodo, Sender.owes]
          refine hi.deliver ?_ ?_ fun w hw ↦ ?_
          · intro raw' todo' heq
            split_ifs at heq
            cases heq
            exact hnodup.2
          · rw [howes, hsender]
            simp [hnodup.1, Sender.owes, Msg.bytes]
          · rw [howes, hsender]
            simp [hw, Sender.owes]
      · cases h
  | senderEnded =>
      obtain ⟨hsender, rfl⟩ := by simpa only [next, Option.ite_none_right_eq_some,
        Option.some.injEq] using h
      refine ⟨by simp, fun v halive ↦ ?_, hi.got, hi.writing⟩
      simpa [hsender, Sender.owes] using hi.kept v halive
  | commandSent v kill =>
      cases h
      refine hi.deliver hi.todo ?_ fun _ _ ↦ rfl
      cases kill <;> rfl
  | slave v e =>
      simp only [next, Option.map_eq_some_iff] at h
      obtain ⟨n, hn, rfl⟩ := h
      exact hi.slave hredirect hn

theorem of_exec (hredirect : cfg.services.redirect = true) (h : Exec (next cfg) init tr s)
    (hlossless : Meets Lossless tr) : Inv s :=
  h.invariant inv_init (fun _ _ _ hi he hnext ↦ hi.step hredirect he hnext) hlossless

end Inv

/-! ## Progress -/

/-- How far the bytes a slave has are from its child. -/
def Slave.rank (n : Slave) : ℕ :=
  (n.link.map fun m ↦ 2 * m.bytes.length + 1).sum + 2 * n.thread.rest.length + n.pipe.length

def Sender.rank : Sender V → ℕ
  | .sending raw todo => todo.length * (2 * raw.length + 2)
  | .selecting | .ended => 0

omit [DecidableEq V] in
theorem Slave.exists_step {n : Slave} (hredirect : cfg.services.redirect = true) (halive : n.Alive)
    (hwriting : ∀ rest, n.thread = .writing rest → rest ≠ [])
    (hsome : n.pipe ≠ [] ∨ n.thread ≠ .selecting ∨ n.link ≠ []) :
    ∃ e n', n.next cfg e = some n' ∧ n'.Alive ∧ n'.rank < n.rank := by
  by_cases hpipe : n.pipe = []
  swap
  · have hpos := List.length_pos_iff.mpr hpipe
    refine ⟨.childRead n.pipe.length, { n with
      got := n.got ++ n.pipe.take n.pipe.length
      pipe := n.pipe.drop n.pipe.length }, if_pos ⟨halive.1, hpos, le_rfl⟩, halive, ?_⟩
    simpa [rank] using hpos
  cases hthread : n.thread with
  | ended => exact absurd hthread halive.2
  | writing rest =>
      have hpos := List.length_pos_iff.mpr (hwriting rest hthread)
      refine ⟨.wrote 1, { n with
        pipe := n.pipe ++ rest.take 1
        thread := .output (rest.drop 1) }, ?_, ⟨halive.1, RecvThread.output_ne_ended _⟩, ?_⟩
      · simp only [next, hthread]
        refine if_pos ⟨halive.1, Nat.one_pos, hpos, ?_⟩
        simpa [hpipe] using Nat.succ_le_of_lt cfg.pipe_pos
      · simp only [rank, hthread, hpipe, RecvThread.rest_output, RecvThread.rest_writing,
          List.nil_append, List.length_take, List.length_drop, List.length_nil]
        omega
  | selecting =>
      cases hlink : n.link with
      | nil => simp [hpipe, hthread, hlink] at hsome
      | cons m link =>
          refine ⟨.handled, recvThread cfg { n with link := link } m, by simp only [next, hthread,
            hlink], ?_⟩
          cases m with
          | recvFromStdin raw =>
              rw [recvThread, Services.slave_eq, if_pos hredirect]
              refine ⟨⟨halive.1, RecvThread.output_ne_ended _⟩, ?_⟩
              simp only [rank, hthread, hlink, RecvThread.rest_output, RecvThread.rest_selecting,
                List.map_cons, List.sum_cons, Msg.bytes, List.length_nil]
              omega
          | kill =>
              rw [recvThread]
              split_ifs
              · refine ⟨halive, ?_⟩
                simp [rank, hlink]
              · refine ⟨halive, ?_⟩
                simp [rank, hlink]
          | other =>
              refine ⟨halive, ?_⟩
              simp [recvThread, rank, hlink]

/-- As long as a child has not got all the master has read, something can go on. -/
theorem Inv.exists_step (hi : Inv s) (hredirect : cfg.services.redirect = true) {v : V}
    (halive : (s.slave v).Alive) (hgot : (s.slave v).got ≠ s.read) :
    ∃ e s', Lossless s e ∧ next cfg s e = some s' ∧ (s'.slave v).Alive ∧ s'.read = s.read ∧
      s'.sender.rank + (s'.slave v).rank < s.sender.rank + (s.slave v).rank := by
  by_cases hsome : (s.slave v).pipe ≠ [] ∨ (s.slave v).thread ≠ .selecting ∨ (s.slave v).link ≠ []
  · obtain ⟨e, n, hnext, hn, hrank⟩ :=
      Slave.exists_step hredirect halive (hi.writing v) hsome
    refine ⟨.slave v e, { s with slave := Function.update s.slave v n }, by simp [Lossless], ?_, ?_⟩
    · simp [next, hnext]
    · simpa using ⟨hn, hrank⟩
  · -- everything that was sent has been read, so the master is still sending
    simp only [ne_eq, not_or, not_not] at hsome
    have hkept := hi.kept v halive
    simp only [Slave.total, hsome, List.append_nil, RecvThread.rest_selecting,
      List.flatMap_nil] at hkept
    cases hsender : s.sender with
    | selecting => simp [hsender, Sender.owes, hgot] at hkept
    | ended => simp [hsender, Sender.owes, hgot] at hkept
    | sending raw todo =>
        cases todo with
        | nil => simp [hsender, Sender.owes, hgot] at hkept
        | cons w todo =>
            set sd : Sender V := if todo = [] then .selecting else .sending raw todo with hsd
            refine ⟨.sent true, { s with sender := sd }.deliver w (.recvFromStdin raw),
              by simp [Lossless], by simp [next, hsender, hsd], ?_⟩
            have hrank : sd.rank + (2 * raw.length + 2) =
                (Sender.sending raw (w :: todo)).rank := by
              by_cases htodo : todo = [] <;> simp [hsd, htodo, Sender.rank, Nat.add_mul]
            by_cases hvw : v = w
            · subst hvw
              refine ⟨by simpa [State.deliver, Slave.Alive] using halive, rfl, ?_⟩
              simp only [State.deliver, Function.update_self, Slave.rank, List.map_append,
                List.map_cons, List.map_nil, List.sum_append, List.sum_cons, List.sum_nil,
                Msg.bytes, ← hrank]
              omega
            · refine ⟨by simpa [State.deliver, hvw] using halive, rfl, ?_⟩
              simp only [State.deliver, Function.update_of_ne hvw, ← hrank]
              omega

/-- When every send succeeds, what the children have read from their standard input are initial
pieces of what the master has read from its own, so that of any two one is a piece of the other;
and a child that has its input open, with a `recv_thread` that has not ended, can come to read
all the master has read. -/
theorem stdin_broadcast (hredirect : cfg.services.redirect = true)
    (hexec : Exec (next cfg) init tr s) (hlossless : Meets Lossless tr) :
    (∀ v, (s.slave v).got <+: s.read) ∧
      (∀ v w, (s.slave v).got <+: (s.slave w).got ∨ (s.slave w).got <+: (s.slave v).got) ∧
      ∀ v, (s.slave v).Alive → ∃ s', Reaches (next cfg) Lossless s s' ∧ s'.read = s.read ∧
        (s'.slave v).got = s.read := by
  have hi := Inv.of_exec hredirect hexec hlossless
  have hgot : ∀ v, (s.slave v).got <+: s.read := fun v ↦
    (List.prefix_append _ _).trans (hi.got v)
  refine ⟨hgot, fun v w ↦ List.prefix_or_prefix_of_prefix (hgot v) (hgot w), fun v halive ↦ ?_⟩
  refine Reaches.exists_of_progress (I := fun t ↦ Inv t ∧ (t.slave v).Alive ∧ t.read = s.read)
    (fun t ↦ t.sender.rank + (t.slave v).rank) ?_ ⟨hi, halive, rfl⟩
  rintro t ⟨hit, halive, hread⟩ hmissing
  obtain ⟨e, t', he, hnext, halive', hread', hrank⟩ := hit.exists_step hredirect halive
    (fun heq ↦ hmissing ⟨hread, heq.trans hread⟩)
  exact ⟨e, t', he, hnext, ⟨hit.step hredirect he hnext, halive', hread'.trans hread⟩, hrank⟩

/-- Two nodes, messages of eight bytes and pipes of as many. -/
def pairConfig : Config Bool where
  nodes := .pair
  services := ⟨false, true, true, false, false, true⟩
  rawSize := 8
  pipeSize := 8
  raw_pos := Nat.succ_pos 7
  pipe_pos := Nat.succ_pos 7

instance (s : State V) (e : Event V) : Decidable (Lossless s e) :=
  inferInstanceAs (Decidable (e ≠ .sent false))

/-- One child has read a byte more than the other. -/
theorem stdin_broadcast_pair : ∃ tr s, Exec (next pairConfig) init tr s ∧ Meets Lossless tr ∧
    ((s.slave false).got = [104, 105] ∧ (s.slave true).got = [104]) ∧
    ∃ s', Reaches (next pairConfig) Lossless s s' ∧ s'.read = s.read ∧
      (s'.slave true).got = s.read := by
  have hrun : ∃ tr s, Exec (next pairConfig) init tr s ∧ Meets Lossless tr ∧
      (((s.slave false).got = [104, 105] ∧ (s.slave true).got = [104]) ∧
        (s.slave true).opened = true ∧ (s.slave true).thread ≠ .ended) :=
    Exec.exists_of_run [.read [104, 105], .sent true, .commandSent true false, .sent true,
      .slave false .handled, .slave false (.wrote 2), .slave false (.childRead 2),
      .slave true .handled, .slave true .handled, .slave true (.wrote 1),
      .slave true (.childRead 1)] (by decide)
  obtain ⟨tr, s, hexec, hlossless, hgot, halive⟩ := hrun
  exact ⟨tr, s, hexec, hlossless, hgot, (stdin_broadcast rfl hexec hlossless).2.2 true halive⟩

/-! ## A command behind unread input -/

/-- The thread is in `write`, and the pipe is full. -/
structure Slave.Stuck (cfg : Config V) (n : Slave) : Prop where
  opened : n.opened = true
  full : n.pipe.length = cfg.pipeSize
  killed : n.killed = false
  writing : ∃ rest, n.thread = .writing rest

omit [DecidableEq V] in
/-- Only the child can go on. -/
theorem Slave.Stuck.of_next {n n' : Slave} {e : SlaveEvent} (hst : n.Stuck cfg)
    (h : n.next cfg e = some n') : (∃ size, e = .childRead size) ∨ e = .childClosed := by
  obtain ⟨rest, hrest⟩ := hst.writing
  cases e with
  | handled => simp [next, hrest] at h
  | wrote size =>
      have hfull := hst.full
      simp only [next, hrest, Option.ite_none_right_eq_some] at h
      omega
  | writeFailed => simp [next, hrest, hst.opened] at h
  | threadEnded => simp [next, hrest] at h
  | childRead size => exact .inl ⟨size, rfl⟩
  | childClosed => exact .inr rfl

/-- The child of a node neither reads its input nor closes it. -/
def Unread (v : V) (_ : State V) (e : Event V) : Prop :=
  (∀ size, e ≠ .slave v (.childRead size)) ∧ e ≠ .slave v .childClosed

theorem stuck_deliver {v w : V} {m : Msg} {sd : Sender V} (hst : (s.slave v).Stuck cfg) :
    (({ s with sender := sd }.deliver w m).slave v).Stuck cfg ∧
      (s.slave v).link <+: (({ s with sender := sd }.deliver w m).slave v).link := by
  by_cases hvw : v = w
  · subst hvw
    simpa [State.deliver] using ⟨hst.opened, hst.full, hst.killed, hst.writing⟩
  · simpa [State.deliver, hvw] using hst

/-- The thread stays where it is, and what was sent to the slave stays unhandled. -/
theorem stuck_step {v : V} (hst : (s.slave v).Stuck cfg) {e : Event V} (he : Unread v s e)
    (h : next cfg s e = some s') :
    (s'.slave v).Stuck cfg ∧ (s.slave v).link <+: (s'.slave v).link := by
  cases e with
  | read raw =>
      obtain ⟨-, rfl⟩ := by simpa only [next, Option.ite_none_right_eq_some,
        Option.some.injEq] using h
      exact ⟨hst, List.prefix_rfl⟩
  | sent ok =>
      simp only [next] at h
      split at h
      · cases h
        cases ok with
        | true => exact stuck_deliver hst
        | false => exact ⟨hst, List.prefix_rfl⟩
      · cases h
  | senderEnded =>
      obtain ⟨-, rfl⟩ := by simpa only [next, Option.ite_none_right_eq_some,
        Option.some.injEq] using h
      exact ⟨hst, List.prefix_rfl⟩
  | commandSent w kill =>
      cases h
      exact stuck_deliver hst
  | slave w e =>
      simp only [next, Option.map_eq_some_iff] at h
      obtain ⟨n, hn, rfl⟩ := h
      by_cases hvw : v = w
      · subst hvw
        rcases hst.of_next hn with ⟨size, rfl⟩ | rfl
        · exact absurd rfl (he.1 size)
        · exact absurd rfl he.2
      · simpa [hvw] using hst

/-- `my_axiom_send_raw` gets through its nodes. -/
theorem reaches_sent {raw : List UInt8} {todo : List V} (hnodup : todo.Nodup) (htodo : todo ≠ [])
    (hsender : s.sender = .sending raw todo) :
    ∃ s', Reaches (next cfg) InputOnly s s' ∧ s'.sender = .selecting ∧ ∀ v, s'.slave v =
      if v ∈ todo then { s.slave v with link := (s.slave v).link ++ [.recvFromStdin raw] }
      else s.slave v := by
  induction todo generalizing s with
  | nil => exact absurd rfl htodo
  | cons w todo ih =>
      obtain ⟨hw, hnodup⟩ := List.nodup_cons.mp hnodup
      set sd : Sender V := if todo = [] then .selecting else .sending raw todo with hsd
      set t := { s with sender := sd }.deliver w (.recvFromStdin raw) with ht
      have hstep : Reaches (next cfg) InputOnly s t :=
        .single (e := .sent true) rfl (by simp [next, hsender, hsd, ht])
      have hslave : ∀ v, t.slave v = if v = w then
          { s.slave v with link := (s.slave v).link ++ [.recvFromStdin raw] } else s.slave v := by
        intro v
        by_cases hv : v = w
        · subst hv
          simp [ht, State.deliver]
        · simp [ht, State.deliver, hv]
      by_cases hlast : todo = []
      · subst hlast
        exact ⟨t, hstep, by simp [ht, hsd, State.deliver], by simpa using hslave⟩
      · obtain ⟨s', hreaches, hselecting, hs'⟩ := ih (s := t) hnodup hlast
          (by simp [ht, hsd, hlast, State.deliver])
        refine ⟨s', hstep.trans hreaches, hselecting, fun v ↦ ?_⟩
        rw [hs' v, hslave v]
        by_cases hv : v = w
        · subst hv
          simp [hw]
        · simp [hv]

/-- A byte comes to a slave that was waiting for one. -/
theorem reaches_writing (hredirect : cfg.services.redirect = true) (hsender : s.sender = .selecting)
    {v : V} (hthread : (s.slave v).thread = .selecting) (hlink : (s.slave v).link = []) :
    ∃ s', Reaches (next cfg) InputOnly s s' ∧ s'.sender = .selecting ∧
      s'.slave v = { s.slave v with thread := .writing [0] } := by
  set t : State V := { s with sender := .sending [0] cfg.nodes.toList, read := s.read ++ [0] }
    with ht
  have hread : Reaches (next cfg) InputOnly s t :=
    .single (e := .read [0]) trivial
      (if_pos ⟨hsender, by simp, Nat.succ_le_of_lt cfg.raw_pos⟩)
  have hsend : t.sender = .sending [0] cfg.nodes.toList := rfl
  obtain ⟨u, hsent, hselecting, hu⟩ := reaches_sent cfg.nodes.nodup
    (List.ne_nil_of_mem (cfg.nodes.mem v)) hsend
  have huv : u.slave v = { s.slave v with link := [.recvFromStdin [0]] } := by
    rw [hu v, if_pos (cfg.nodes.mem v)]
    simp [ht, hlink]
  set n : Slave := { s.slave v with thread := .writing [0] } with hn
  refine ⟨{ u with slave := Function.update u.slave v n }, (hread.trans hsent).step
    (e := .slave v .handled) trivial ?_, hselecting, by simp⟩
  have hnext : (u.slave v).next cfg .handled = some n := by
    simp only [Slave.next, huv, hthread, recvThread, Services.slave_eq, hredirect, if_true]
    simp [RecvThread.output, hn, hlink]
  simp [next, hnext]

/-- The pipe fills while the child does not read. -/
theorem reaches_filled (hredirect : cfg.services.redirect = true) (v : V) {k : ℕ}
    (hk : k ≤ cfg.pipeSize) :
    ∃ s : State V, Reaches (next cfg) InputOnly init s ∧ s.sender = .selecting ∧
      s.slave v = ⟨[], .selecting, List.replicate k 0, true, [], false⟩ := by
  induction k with
  | zero => exact ⟨init, .refl _, rfl, rfl⟩
  | succ k ih =>
      obtain ⟨s, hs, hsender, hslave⟩ := ih (Nat.le_of_succ_le hk)
      obtain ⟨t, ht, hsender', hslave'⟩ := reaches_writing hredirect hsender (v := v)
        (by rw [hslave]) (by rw [hslave])
      set n : Slave := ⟨[], .selecting, List.replicate (k + 1) 0, true, [], false⟩ with hn
      refine ⟨{ t with slave := Function.update t.slave v n }, (hs.trans ht).step
        (e := .slave v (.wrote 1)) trivial ?_, hsender', by simp⟩
      have hnext : (t.slave v).next cfg (.wrote 1) = some n := by
        simp only [Slave.next, hslave', hslave]
        rw [if_pos (by simpa using hk)]
        simp [RecvThread.output, hn, List.replicate_succ']
      simp [next, hnext]

/-- `recv_thread` waits behind input that its child has left unread. -/
theorem reaches_stuck (hredirect : cfg.services.redirect = true) (v : V) :
    ∃ s : State V, Reaches (next cfg) InputOnly init s ∧ s.sender = .selecting ∧
      (s.slave v).link = [] ∧ (s.slave v).Stuck cfg := by
  obtain ⟨s, hs, hsender, hslave⟩ := reaches_filled hredirect v le_rfl
  obtain ⟨t, ht, hsender', hslave'⟩ := reaches_writing hredirect hsender (v := v)
    (by rw [hslave]) (by rw [hslave])
  rw [hslave] at hslave'
  refine ⟨t, hs.trans ht, hsender', by rw [hslave'], ?_⟩
  rw [hslave']
  exact ⟨rfl, List.length_replicate, rfl, _, rfl⟩

end AxiomApps.Run.Stdin
