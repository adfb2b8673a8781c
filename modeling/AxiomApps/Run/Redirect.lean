import Mathlib.Tactic

/-!
# A slave redirecting output

A child writes into two pipes. For each of them the slave has a `send_thread`, which reads the
pipe and sends what it has read to the master; a third thread, `recv_thread`, writes the input of
the child. When the child has ended, the slave ends the threads one after the other, reads what
is left in the pipes itself, for 750 ms at most, and sends `CMD_EXIT`.
-/

namespace AxiomApps.Run.Redirect

inductive Stream
  | stdout
  | stderr
  deriving DecidableEq, Repr

/-- `CMD_SEND_TO_STDOUT`, `CMD_SEND_TO_STDERR` and `CMD_EXIT`. -/
inductive Msg
  | sendTo (st : Stream) (raw : List UInt8)
  | exit (status : ℕ)
  deriving DecidableEq, Repr

/-- A pipe, and whether some process has its write end open. -/
structure Pipe where
  content : List UInt8
  writers : Bool
  deriving DecidableEq, Repr

/-- `select` reports the read end. -/
def Pipe.ready (p : Pipe) : Bool := p.content ≠ [] ∨ p.writers = false

/-- Where a `send_thread` is. -/
inductive SendThread
  | select
  | read
  | send (raw : List UInt8)
  | ended
  deriving DecidableEq, Repr

/-- Where `recv_thread` is. -/
inductive RecvThread
  | select
  /-- `select` has reported a message -/
  | recv
  /-- writing input, for as long as the pipe of the child has no room -/
  | output
  | ended
  deriving DecidableEq, Repr

/-- Where `manage_slave_services` is, from its `waitpid` on. -/
inductive Main
  | waitpid
  /-- `terminate_thread_slave` for `thout` or `therr` -/
  | terminate (st : Stream)
  /-- the same for `thin`, and for `thsock`, which never blocks -/
  | terminateRest
  /-- the loop that reads what is left, at its `select` -/
  | select
  /-- at the `read` of a stream, with the others `select` has reported -/
  | read (st : Stream) (todo : List Stream)
  | send (st : Stream) (raw : List UInt8) (todo : List Stream)
  | exit
  /-- its return, and whether `CMD_EXIT` was sent -/
  | returned (sent : Bool)
  deriving DecidableEq, Repr

structure Slave where
  pipe : Stream → Pipe
  thread : Stream → SendThread
  endfd : Stream → Bool
  recv : RecvThread
  main : Main
  /-- `closedout` and `closederr` -/
  closed : Stream → Bool
  status : ℕ

/-- What the child, its descendants, the threads and the main program of a slave do, and the
system calls that fail. -/
inductive SlaveEvent
  | wrote (st : Stream) (bs : List UInt8)
  | closed (st : Stream)
  | childEnded (status : ℕ)
  | selected (st : Stream)
  | read (st : Stream) (size : ℕ)
  | readFailed (st : Stream)
  | sent (st : Stream) (ok : Bool)
  | messageReported
  | messageReceived (input : Bool)
  | inputWritten
  | recvEnded
  | joined
  | drainSelected
  | timedOut
  | drainRead (size : ℕ)
  | drainReadFailed
  | drainSent (ok : Bool)
  | exitSent (ok : Bool)
  deriving DecidableEq, Repr

namespace Slave

def setPipe (n : Slave) (st : Stream) (p : Pipe) : Slave :=
  { n with pipe := Function.update n.pipe st p }

def setThread (n : Slave) (st : Stream) (t : SendThread) : Slave :=
  { n with thread := Function.update n.thread st t }

/-- `eventfd_write` and then `pthread_join`. -/
def terminate (n : Slave) (st : Stream) : Slave :=
  { n with main := .terminate st, endfd := Function.update n.endfd st true }

/-- The streams `select` reports to the loop that reads what is left. -/
def readable (n : Slave) : List Stream :=
  [.stdout, .stderr].filter fun st ↦ !n.closed st && (n.pipe st).ready

/-- On to the next stream that was reported, or to the end of the turn. -/
def afterRead (n : Slave) (todo : List Stream) : Slave :=
  match todo with
  | st :: todo => { n with main := .read st todo }
  | [] => { n with main := if n.closed .stdout && n.closed .stderr then .exit else .select }

/-- `read` takes some bytes, `rawSize` at most, or finds the end of the stream. -/
def next (rawSize : ℕ) (n : Slave) : SlaveEvent → Option (Slave × List Msg)
  | .wrote st bs =>
      let p := n.pipe st
      if p.writers then some (n.setPipe st { p with content := p.content ++ bs }, []) else none
  | .closed st =>
      let p := n.pipe st
      if p.writers then some (n.setPipe st { p with writers := false }, []) else none
  | .childEnded status =>
      if n.main = .waitpid then some ({ n with status := status }.terminate .stdout, []) else none
  | .selected st =>
      if n.thread st = .select then
        if n.endfd st then some (n.setThread st .ended, [])
        else if (n.pipe st).ready then some (n.setThread st .read, []) else none
      else none
  | .read st size =>
      let p := n.pipe st
      if n.thread st = .read then
        if p.content = [] then
          if p.writers then none else some (n.setThread st .ended, [])
        else if 0 < size ∧ size ≤ rawSize then
          some ((n.setPipe st { p with content := p.content.drop size }).setThread st
            (.send (p.content.take size)), [])
        else none
      else none
  | .readFailed st =>
      if n.thread st = .select ∨ n.thread st = .read then some (n.setThread st .ended, []) else none
  | .sent st ok =>
      match n.thread st with
      | .send raw => some (n.setThread st .select, if ok then [.sendTo st raw] else [])
      | _ => none
  | .messageReported =>
      -- a request to end comes first
      if n.recv = .select ∧ n.main ≠ .terminateRest then some ({ n with recv := .recv }, [])
      else none
  | .messageReceived input =>
      if n.recv = .recv then some ({ n with recv := if input then .output else .select }, [])
      else none
  | .inputWritten => if n.recv = .output then some ({ n with recv := .select }, []) else none
  | .recvEnded =>
      if n.recv = .select ∧ n.main = .terminateRest then some ({ n with recv := .ended }, [])
      else none
  | .joined =>
      match n.main with
      | .terminate .stdout =>
          if n.thread .stdout = .ended then some (n.terminate .stderr, []) else none
      | .terminate .stderr =>
          if n.thread .stderr = .ended then some ({ n with main := .terminateRest }, []) else none
      | .terminateRest =>
          if n.recv = .ended then some ({ n with main := .select }, []) else none
      | _ => none
  | .drainSelected =>
      match n.main, n.readable with
      | .select, st :: todo => some ({ n with main := .read st todo }, [])
      | _, _ => none
  | .timedOut => if n.main = .select then some ({ n with main := .exit }, []) else none
  | .drainRead size =>
      match n.main with
      | .read st todo =>
          let p := n.pipe st
          if p.content = [] then
            if p.writers then none
            else some ({ n with closed := Function.update n.closed st true }.afterRead todo, [])
          else if 0 < size ∧ size ≤ rawSize then
            some ({ n.setPipe st { p with content := p.content.drop size } with
              main := .send st (p.content.take size) todo }, [])
          else none
      | _ => none
  | .drainReadFailed =>
      match n.main with
      | .read _ todo => some (n.afterRead todo, [])
      | _ => none
  | .drainSent ok =>
      match n.main with
      | .send st raw todo => some (n.afterRead todo, if ok then [.sendTo st raw] else [])
      | _ => none
  | .exitSent ok =>
      if n.main = .exit then
        some ({ n with main := .returned ok }, if ok then [.exit n.status] else [])
      else none

end Slave

def Slave.start : Slave where
  pipe := fun _ ↦ ⟨[], true⟩
  thread := fun _ ↦ .select
  endfd := fun _ ↦ false
  recv := .select
  main := .waitpid
  closed := fun _ ↦ false
  status := 0

/-! ## Its steps -/

namespace Slave

/-- The steps of a slave, one constructor for each way a branch of the source ends. -/
inductive Step (rawSize : ℕ) (n : Slave) : SlaveEvent → Slave → List Msg → Prop
  | wrote {st : Stream} {bs : List UInt8} (hwriters : (n.pipe st).writers = true) :
      Step rawSize n (.wrote st bs)
        (n.setPipe st { n.pipe st with content := (n.pipe st).content ++ bs }) []
  | closed {st : Stream} (hwriters : (n.pipe st).writers = true) :
      Step rawSize n (.closed st) (n.setPipe st { n.pipe st with writers := false }) []
  | childEnded {status : ℕ} (hmain : n.main = .waitpid) :
      Step rawSize n (.childEnded status) ({ n with status := status }.terminate .stdout) []
  | selectedEnd {st : Stream} (hthread : n.thread st = .select) :
      Step rawSize n (.selected st) (n.setThread st .ended) []
  | selectedPipe {st : Stream} (hthread : n.thread st = .select)
      (hready : (n.pipe st).ready = true) :
      Step rawSize n (.selected st) (n.setThread st .read) []
  | readEnd {st : Stream} {size : ℕ} (hthread : n.thread st = .read) :
      Step rawSize n (.read st size) (n.setThread st .ended) []
  | read {st : Stream} {size : ℕ} (hthread : n.thread st = .read)
      (hcontent : (n.pipe st).content ≠ []) (hpos : 0 < size) (hle : size ≤ rawSize) :
      Step rawSize n (.read st size)
        ((n.setPipe st { n.pipe st with content := (n.pipe st).content.drop size }).setThread st
          (.send ((n.pipe st).content.take size))) []
  | readFailed {st : Stream} (hthread : n.thread st = .select ∨ n.thread st = .read) :
      Step rawSize n (.readFailed st) (n.setThread st .ended) []
  | sent {st : Stream} {raw : List UInt8} (ok : Bool) (hthread : n.thread st = .send raw) :
      Step rawSize n (.sent st ok) (n.setThread st .select) (if ok then [.sendTo st raw] else [])
  | messageReported (hrecv : n.recv = .select) :
      Step rawSize n .messageReported { n with recv := .recv } []
  | messageReceived (input : Bool) (hrecv : n.recv = .recv) :
      Step rawSize n (.messageReceived input)
        { n with recv := if input then .output else .select } []
  | inputWritten (hrecv : n.recv = .output) :
      Step rawSize n .inputWritten { n with recv := .select } []
  | recvEnded (hrecv : n.recv = .select) (hmain : n.main = .terminateRest) :
      Step rawSize n .recvEnded { n with recv := .ended } []
  | joinedStdout (hmain : n.main = .terminate .stdout) (hthread : n.thread .stdout = .ended) :
      Step rawSize n .joined (n.terminate .stderr) []
  | joinedStderr (hmain : n.main = .terminate .stderr) (hthread : n.thread .stderr = .ended) :
      Step rawSize n .joined { n with main := .terminateRest } []
  | joinedRest (hmain : n.main = .terminateRest) (hrecv : n.recv = .ended) :
      Step rawSize n .joined { n with main := .select } []
  | drainSelected {st : Stream} {todo : List Stream} (hmain : n.main = .select)
      (hreadable : n.readable = st :: todo) :
      Step rawSize n .drainSelected { n with main := .read st todo } []
  | timedOut (hmain : n.main = .select) : Step rawSize n .timedOut { n with main := .exit } []
  | drainEnd {st : Stream} {todo : List Stream} {size : ℕ} (hmain : n.main = .read st todo)
      (hcontent : (n.pipe st).content = []) (hwriters : (n.pipe st).writers = false) :
      Step rawSize n (.drainRead size)
        ({ n with closed := Function.update n.closed st true }.afterRead todo) []
  | drainRead {st : Stream} {todo : List Stream} {size : ℕ} (hmain : n.main = .read st todo)
      (hcontent : (n.pipe st).content ≠ []) (hpos : 0 < size) (hle : size ≤ rawSize) :
      Step rawSize n (.drainRead size)
        { n.setPipe st { n.pipe st with content := (n.pipe st).content.drop size } with
          main := .send st ((n.pipe st).content.take size) todo } []
  | drainReadFailed {st : Stream} {todo : List Stream} (hmain : n.main = .read st todo) :
      Step rawSize n .drainReadFailed (n.afterRead todo) []
  | drainSent {st : Stream} {raw : List UInt8} {todo : List Stream} (ok : Bool)
      (hmain : n.main = .send st raw todo) :
      Step rawSize n (.drainSent ok) (n.afterRead todo) (if ok then [.sendTo st raw] else [])
  | exitSent (ok : Bool) (hmain : n.main = .exit) :
      Step rawSize n (.exitSent ok) { n with main := .returned ok }
        (if ok then [.exit n.status] else [])

theorem step_of_next {rawSize : ℕ} {n n' : Slave} {e : SlaveEvent} {ms : List Msg}
    (h : n.next rawSize e = some (n', ms)) : Step rawSize n e n' ms := by
  cases e with
  | wrote st bs =>
      simp only [next] at h
      split_ifs at h with hwriters
      cases h
      exact .wrote hwriters
  | closed st =>
      simp only [next] at h
      split_ifs at h with hwriters
      cases h
      exact .closed hwriters
  | childEnded status =>
      simp only [next] at h
      split_ifs at h with hmain
      cases h
      exact .childEnded hmain
  | selected st =>
      simp only [next] at h
      split_ifs at h with hthread hend hready
      · cases h
        exact .selectedEnd hthread
      · cases h
        exact .selectedPipe hthread hready
  | read st size =>
      simp only [next] at h
      split_ifs at h with hthread hcontent hwriters hsize
      · cases h
        exact .readEnd hthread
      · cases h
        exact .read hthread hcontent hsize.1 hsize.2
  | readFailed st =>
      simp only [next] at h
      split_ifs at h with hthread
      cases h
      exact .readFailed hthread
  | sent st ok =>
      simp only [next] at h
      split at h
      · next raw hthread =>
          cases h
          exact .sent ok hthread
      · cases h
  | messageReported =>
      simp only [next] at h
      split_ifs at h with hrecv
      cases h
      exact .messageReported hrecv.1
  | messageReceived input =>
      simp only [next, Option.ite_none_right_eq_some] at h
      obtain ⟨hrecv, heq⟩ := h
      cases heq
      exact .messageReceived input hrecv
  | inputWritten =>
      simp only [next] at h
      split_ifs at h with hrecv
      cases h
      exact .inputWritten hrecv
  | recvEnded =>
      simp only [next] at h
      split_ifs at h with hrecv
      cases h
      exact .recvEnded hrecv.1 hrecv.2
  | joined =>
      simp only [next] at h
      split at h
      · next hmain =>
          split_ifs at h with hthread
          cases h
          exact .joinedStdout hmain hthread
      · next hmain =>
          split_ifs at h with hthread
          cases h
          exact .joinedStderr hmain hthread
      · next hmain =>
          split_ifs at h with hrecv
          cases h
          exact .joinedRest hmain hrecv
      · cases h
  | drainSelected =>
      simp only [next] at h
      split at h
      · next hmain hreadable =>
          cases h
          exact .drainSelected hmain hreadable
      · cases h
  | timedOut =>
      simp only [next] at h
      split_ifs at h with hmain
      cases h
      exact .timedOut hmain
  | drainRead size =>
      simp only [next] at h
      split at h
      · next st todo hmain =>
          split_ifs at h with hcontent hwriters hsize
          · cases h
            exact .drainEnd hmain hcontent (Bool.not_eq_true _ ▸ hwriters)
          · cases h
            exact .drainRead hmain hcontent hsize.1 hsize.2
      · cases h
  | drainReadFailed =>
      simp only [next] at h
      split at h
      · next hmain =>
          cases h
          exact .drainReadFailed hmain
      · cases h
  | drainSent ok =>
      simp only [next] at h
      split at h
      · next hmain =>
          cases h
          exact .drainSent ok hmain
      · cases h
  | exitSent ok =>
      simp only [next] at h
      split at h
      · next hmain =>
          cases h
          exact .exitSent ok hmain
      · cases h

end Slave

/-! ## The bytes of a stream -/

def SendThread.held : SendThread → List UInt8
  | .send raw => raw
  | _ => []

def Main.held (st : Stream) : Main → List UInt8
  | .send st' raw _ => if st' = st then raw else []
  | _ => []

/-- The streams the loop that reads what is left still has to look at in this turn. -/
def Main.todo : Main → List Stream
  | .read st todo => st :: todo
  | .send _ _ todo => todo
  | _ => []

/-- The thread of the stream has been joined. -/
def Main.Past (st : Stream) : Main → Prop
  | .waitpid => False
  | .terminate .stdout => False
  | .terminate .stderr => st = .stdout
  | _ => True

def Msg.raw (st : Stream) : Msg → List UInt8
  | .sendTo st' raw => if st' = st then raw else []
  | .exit _ => []

/-- Output that fits a message. -/
def Msg.IsOutput (rawSize : ℕ) (m : Msg) : Prop :=
  ∃ st raw, m = .sendTo st raw ∧ raw.length ≤ rawSize

def SlaveEvent.written (st : Stream) : SlaveEvent → List UInt8
  | .wrote st' bs => if st' = st then bs else []
  | _ => []

/-- No message gets lost. -/
def SlaveEvent.Lossless : SlaveEvent → Prop
  | .sent _ ok => ok = true
  | .drainSent ok => ok = true
  | .exitSent ok => ok = true
  | _ => True

namespace Slave

variable {rawSize : ℕ} {n n' : Slave} {e : SlaveEvent} {ms : List Msg} {st : Stream}

/-- What has been written into the pipe and not been sent yet. -/
def unsent (n : Slave) (st : Stream) : List UInt8 :=
  (n.thread st).held ++ n.main.held st ++ (n.pipe st).content

/-- Which threads have ended, and what the control points say of the pipes. -/
structure Shape (rawSize : ℕ) (n : Slave) : Prop where
  joined : ∀ st, n.main.Past st → n.thread st = .ended
  asked : ∀ st, n.main = .terminate st → n.endfd st = true
  ready : ∀ st, n.thread st = .read → (n.pipe st).ready = true
  todo : ∀ st ∈ n.main.todo, n.closed st = false ∧ (n.pipe st).ready = true
  nodup : n.main.todo.Nodup
  closed : ∀ st, n.closed st = true → n.pipe st = ⟨[], false⟩
  thread_le : ∀ st, (n.thread st).held.length ≤ rawSize
  main_le : ∀ st, (n.main.held st).length ≤ rawSize

@[simp] theorem afterRead_pipe (n : Slave) (todo : List Stream) :
    (n.afterRead todo).pipe = n.pipe := by
  cases todo <;> rfl

@[simp] theorem afterRead_thread (n : Slave) (todo : List Stream) :
    (n.afterRead todo).thread = n.thread := by
  cases todo <;> rfl

@[simp] theorem afterRead_recv (n : Slave) (todo : List Stream) :
    (n.afterRead todo).recv = n.recv := by
  cases todo <;> rfl

@[simp] theorem afterRead_closed (n : Slave) (todo : List Stream) :
    (n.afterRead todo).closed = n.closed := by
  cases todo <;> rfl

theorem afterRead_main (n : Slave) (todo : List Stream) :
    (∃ st rest, todo = st :: rest ∧ (n.afterRead todo).main = .read st rest) ∨
      (todo = [] ∧ ((n.afterRead todo).main = .exit ∨ (n.afterRead todo).main = .select)) := by
  cases todo with
  | nil =>
      refine .inr ⟨rfl, ?_⟩
      simp only [afterRead]
      split <;> simp
  | cons st rest => exact .inl ⟨st, rest, rfl, rfl⟩

@[simp] theorem afterRead_held (n : Slave) (todo : List Stream) :
    (n.afterRead todo).main.held st = [] := by
  rcases n.afterRead_main todo with ⟨_, _, -, h⟩ | ⟨-, h | h⟩ <;> rw [h] <;> rfl

@[simp] theorem afterRead_todo (n : Slave) (todo : List Stream) :
    (n.afterRead todo).main.todo = todo := by
  rcases n.afterRead_main todo with ⟨_, _, rfl, h⟩ | ⟨rfl, h | h⟩ <;> rw [h] <;> rfl

/-- While the thread of a stream runs, the main program does not read the stream. -/
theorem Shape.main_held (h : Shape rawSize n) (hthread : n.thread st ≠ .ended) :
    n.main.held st = [] := by
  have hpast : ¬ n.main.Past st := fun hp ↦ hthread (h.joined st hp)
  cases hmain : n.main with
  | send st' raw todo =>
      rw [hmain] at hpast
      exact absurd trivial hpast
  | _ => rfl

/-- A step sends the first of what is unsent, or loses it. -/
theorem Step.unsent (hs : Step rawSize n e n' ms) (h : Shape rawSize n) (st : Stream) :
    (ms.flatMap (Msg.raw st) ++ n'.unsent st).Sublist (n.unsent st ++ e.written st) ∧
      (e.Lossless → ms.flatMap (Msg.raw st) ++ n'.unsent st = n.unsent st ++ e.written st) := by
  -- all but the sends that fail keep the bytes
  suffices hcases : ms.flatMap (Msg.raw st) ++ n'.unsent st = n.unsent st ++ e.written st ∨
      (¬ e.Lossless ∧ (ms.flatMap (Msg.raw st) ++ n'.unsent st).Sublist
        (n.unsent st ++ e.written st)) by
    rcases hcases with heq | ⟨hloss, hsub⟩
    · exact ⟨heq ▸ .refl _, fun _ ↦ heq⟩
    · exact ⟨hsub, fun hl ↦ absurd hl hloss⟩
  cases hs with
  | @wrote st' bs hwriters =>
      left
      by_cases hst : st' = st
      · subst hst
        simp [Slave.unsent, setPipe, SlaveEvent.written]
      · simp [Slave.unsent, setPipe, SlaveEvent.written, hst, Ne.symm hst]
  | @closed st' hwriters =>
      left
      by_cases hst : st' = st
      · subst hst
        simp [Slave.unsent, setPipe, SlaveEvent.written]
      · simp [Slave.unsent, setPipe, SlaveEvent.written, Ne.symm hst]
  | @read st' size hthread hcontent hpos hle =>
      left
      by_cases hst : st' = st
      · subst hst
        have hheld : n.main.held st' = [] := h.main_held (by simp [hthread])
        simp [Slave.unsent, setPipe, setThread, SlaveEvent.written, SendThread.held, hthread, hheld]
      · simp [Slave.unsent, setPipe, setThread, SlaveEvent.written, Ne.symm hst]
  | @drainRead st' todo size hmain hcontent hpos hle =>
      left
      by_cases hst : st' = st
      · subst hst
        have hheld := h.joined st' (by simp [hmain, Main.Past])
        simp [Slave.unsent, setPipe, SlaveEvent.written, SendThread.held, hmain, hheld, Main.held]
      · simp [Slave.unsent, setPipe, SlaveEvent.written, hmain, Main.held, hst, Ne.symm hst]
  | @sent st' raw ok hthread =>
      by_cases hst : st' = st
      · subst hst
        have hheld : n.main.held st' = [] := h.main_held (by simp [hthread])
        cases ok with
        | true =>
            left
            simp [Slave.unsent, setThread, SlaveEvent.written, SendThread.held, hthread, Msg.raw]
        | false =>
            right
            simp [Slave.unsent, setThread, SlaveEvent.written, SendThread.held, hthread, hheld,
              SlaveEvent.Lossless]
      · left
        cases ok <;>
          simp [Slave.unsent, setThread, SlaveEvent.written, Msg.raw, hst, Ne.symm hst]
  | @drainSent st' raw todo ok hmain =>
      have hheld := h.joined st (by simp [hmain, Main.Past])
      have hraw : n.main.held st = if st' = st then raw else [] := by
        rw [hmain]
        rfl
      by_cases hst : st' = st
      · cases ok with
        | true =>
            left
            simp [Slave.unsent, SlaveEvent.written, hraw, hheld, Msg.raw, hst, SendThread.held]
        | false =>
            right
            simp [Slave.unsent, SlaveEvent.written, hraw, hheld, hst, SlaveEvent.Lossless,
              SendThread.held]
      · left
        cases ok <;> simp [Slave.unsent, SlaveEvent.written, hraw, Msg.raw, hst]
  | @selectedEnd st' hthread | @selectedPipe st' hthread _ | @readEnd st' _ hthread =>
      left
      by_cases hst : st' = st
      · subst hst
        simp [Slave.unsent, setThread, SlaveEvent.written, SendThread.held, hthread]
      · simp [Slave.unsent, setThread, SlaveEvent.written, Ne.symm hst]
  | @readFailed st' hthread =>
      left
      by_cases hst : st' = st
      · subst hst
        rcases hthread with hthread | hthread <;>
          simp [Slave.unsent, setThread, SlaveEvent.written, SendThread.held, hthread]
      · simp [Slave.unsent, setThread, SlaveEvent.written, Ne.symm hst]
  | childEnded hmain | joinedStdout hmain _ =>
      left
      simp [Slave.unsent, terminate, SlaveEvent.written, hmain, Main.held]
  | joinedStderr hmain _ | joinedRest hmain _ | drainSelected hmain _ | timedOut hmain =>
      left
      simp [Slave.unsent, SlaveEvent.written, hmain, Main.held]
  | messageReported _ | messageReceived _ _ | inputWritten _ | recvEnded _ _ =>
      left
      simp [Slave.unsent, SlaveEvent.written]
  | @drainEnd st' todo _ hmain _ _ | @drainReadFailed st' todo hmain =>
      left
      have hraw : n.main.held st = [] := by
        rw [hmain]
        rfl
      simp [Slave.unsent, SlaveEvent.written, hraw]
  | exitSent ok hmain =>
      left
      cases ok <;> simp [Slave.unsent, SlaveEvent.written, hmain, Main.held, Msg.raw]

/-! ## Its shape -/

namespace Shape

theorem start : Shape rawSize .start where
  joined _ hp := absurd hp id
  asked _ hmain := by cases hmain
  ready _ hthread := by cases hthread
  todo _ hst := by cases hst
  nodup := List.nodup_nil
  closed _ hclosed := by cases hclosed
  thread_le _ := Nat.zero_le _
  main_le _ := Nat.zero_le _

/-- While a thread runs, the loop that reads what is left has not begun. -/
theorem main_todo (h : Shape rawSize n) (hthread : n.thread st ≠ .ended) : n.main.todo = [] := by
  have hpast : ¬ n.main.Past st := fun hp ↦ hthread (h.joined st hp)
  cases hmain : n.main with
  | read st' todo | send st' raw todo =>
      rw [hmain] at hpast
      exact absurd trivial hpast
  | _ => rfl

theorem setPipe (h : Shape rawSize n) {p : Pipe}
    (hready : (n.pipe st).ready = true → p.ready = true) (hclosed : n.closed st = false) :
    Shape rawSize (n.setPipe st p) where
  joined := h.joined
  asked := h.asked
  ready st' hthread := by
    have hold := h.ready st' hthread
    by_cases hst : st' = st
    · subst hst
      simpa [Slave.setPipe] using hready hold
    · simpa [Slave.setPipe, hst] using hold
  todo st' hmem := by
    obtain ⟨hfalse, hold⟩ := h.todo st' hmem
    refine ⟨hfalse, ?_⟩
    by_cases hst : st' = st
    · subst hst
      simpa [Slave.setPipe] using hready hold
    · simpa [Slave.setPipe, hst] using hold
  nodup := h.nodup
  closed st' hst' := by
    have hst : st' ≠ st := by
      rintro rfl
      exact absurd hst' (by simp [Slave.setPipe, hclosed])
    simpa [Slave.setPipe, hst] using h.closed st' hst'
  thread_le := h.thread_le
  main_le := h.main_le

theorem setThread (h : Shape rawSize n) {t : SendThread}
    (hended : n.thread st = .ended → t = .ended) (hready : t = .read → (n.pipe st).ready = true)
    (hle : t.held.length ≤ rawSize) :
    Shape rawSize (n.setThread st t) where
  joined st' hp := by
    have hold := h.joined st' hp
    by_cases hst : st' = st
    · subst hst
      simpa [Slave.setThread] using hended hold
    · simpa [Slave.setThread, hst] using hold
  asked := h.asked
  ready st' hthread := by
    by_cases hst : st' = st
    · subst hst
      exact hready (by simpa [Slave.setThread] using hthread)
    · exact h.ready st' (by simpa [Slave.setThread, hst] using hthread)
  todo := h.todo
  nodup := h.nodup
  closed := h.closed
  thread_le st' := by
    by_cases hst : st' = st
    · subst hst
      simpa [Slave.setThread] using hle
    · simpa [Slave.setThread, hst] using h.thread_le st'
  main_le := h.main_le

theorem setMain (h : Shape rawSize n) {main : Main}
    (hpast : ∀ st, main.Past st → n.thread st = .ended) (hasked : ∀ st, main ≠ .terminate st)
    (htodo : ∀ st ∈ main.todo, n.closed st = false ∧ (n.pipe st).ready = true)
    (hnodup : main.todo.Nodup) (hheld : ∀ st, main.held st = []) :
    Shape rawSize { n with main := main } where
  joined := hpast
  asked st hmain := absurd hmain (hasked st)
  ready := h.ready
  todo := htodo
  nodup := hnodup
  closed := h.closed
  thread_le := h.thread_le
  main_le st := by simp [hheld st]

theorem terminate (h : Shape rawSize n) (hpast : ∀ st', (Main.terminate st).Past st' →
    n.thread st' = .ended) : Shape rawSize (n.terminate st) where
  joined := hpast
  asked st' hmain := by
    obtain rfl := Main.terminate.inj hmain
    simp [Slave.terminate]
  ready := h.ready
  todo _ hmem := by cases hmem
  nodup := List.nodup_nil
  closed := h.closed
  thread_le := h.thread_le
  main_le _ := Nat.zero_le _

theorem afterRead (h : Shape rawSize n) (hall : ∀ st, n.thread st = .ended) {todo : List Stream}
    (htodo : ∀ st ∈ todo, n.closed st = false ∧ (n.pipe st).ready = true) (hnodup : todo.Nodup) :
    Shape rawSize (n.afterRead todo) := by
  have hmain : n.afterRead todo = { n with main := (n.afterRead todo).main } := by
    cases todo <;> rfl
  rw [hmain]
  refine h.setMain (fun st _ ↦ hall st) (fun st ↦ ?_) ?_ ?_ (fun st ↦ by simp)
  · rcases n.afterRead_main todo with ⟨_, _, -, heq⟩ | ⟨-, heq | heq⟩ <;> rw [heq] <;> exact nofun
  · simpa using htodo
  · simpa using hnodup

theorem closed_false (h : Shape rawSize n) (hready : (n.pipe st).content ≠ [] ∨
    (n.pipe st).writers = true) : n.closed st = false := by
  by_contra hclosed
  have hpipe := h.closed st (by simpa using hclosed)
  simp [hpipe] at hready

end Shape

theorem readable_mem (hst : st ∈ n.readable) :
    n.closed st = false ∧ (n.pipe st).ready = true := by
  simp only [readable, List.mem_filter, Bool.and_eq_true, Bool.not_eq_true'] at hst
  exact hst.2

theorem nodup_readable (n : Slave) : n.readable.Nodup :=
  List.Nodup.filter _ (by decide)

theorem Step.shape (hs : Step rawSize n e n' ms) (h : Shape rawSize n) : Shape rawSize n' := by
  cases hs with
  | @wrote st bs hwriters =>
      refine h.setPipe (fun hready ↦ ?_) (h.closed_false (.inr hwriters))
      simp only [Pipe.ready, hwriters, decide_eq_true_eq, Bool.true_eq_false, or_false] at hready ⊢
      exact List.append_ne_nil_of_left_ne_nil hready _
  | @closed st hwriters =>
      exact h.setPipe (fun _ ↦ by simp [Pipe.ready]) (h.closed_false (.inr hwriters))
  | @childEnded status hmain =>
      have h' : Shape rawSize { n with status := status } :=
        ⟨h.joined, h.asked, h.ready, h.todo, h.nodup, h.closed, h.thread_le, h.main_le⟩
      exact h'.terminate fun st' hp ↦ absurd hp id
  | selectedEnd hthread => exact h.setThread (fun _ ↦ rfl) nofun (Nat.zero_le _)
  | selectedPipe hthread hready =>
      exact h.setThread (fun hended ↦ by simp [hthread] at hended) (fun _ ↦ hready) (Nat.zero_le _)
  | readEnd hthread => exact h.setThread (fun _ ↦ rfl) nofun (Nat.zero_le _)
  | @read st size hthread hcontent hpos hle =>
      have hrun : n.thread st ≠ .ended := by simp [hthread]
      have htodo := h.main_todo hrun
      refine ⟨fun st' hp ↦ ?_, h.asked, fun st' hread ↦ ?_, fun st' hmem ↦ ?_, h.nodup,
        fun st' hclosed ↦ ?_, fun st' ↦ ?_, h.main_le⟩
      · have hold := h.joined st' hp
        have hst : st' ≠ st := by
          rintro rfl
          exact hrun hold
        simpa [Slave.setThread, Slave.setPipe, hst] using hold
      · have hst : st' ≠ st := by
          rintro rfl
          simp [Slave.setThread] at hread
        have hold := h.ready st' (by simpa [Slave.setThread, Slave.setPipe, hst] using hread)
        simpa [Slave.setThread, Slave.setPipe, hst] using hold
      · change st' ∈ n.main.todo at hmem
        rw [htodo] at hmem
        cases hmem
      · have hst : st' ≠ st := by
          rintro rfl
          have hfalse := h.closed_false (.inl hcontent)
          change n.closed st' = true at hclosed
          rw [hfalse] at hclosed
          cases hclosed
        simpa [Slave.setThread, Slave.setPipe, hst] using h.closed st' hclosed
      · by_cases hst : st' = st
        · subst hst
          simp only [Slave.setThread, Function.update_self, SendThread.held, List.length_take]
          omega
        · simpa [Slave.setThread, Slave.setPipe, hst] using h.thread_le st'
  | readFailed hthread => exact h.setThread (fun _ ↦ rfl) nofun (Nat.zero_le _)
  | sent ok hthread =>
      exact h.setThread (fun hended ↦ by simp [hthread] at hended) nofun (Nat.zero_le _)
  | joinedStdout hmain hthread =>
      refine h.terminate fun st' hp ↦ ?_
      obtain rfl : st' = .stdout := hp
      exact hthread
  | joinedStderr hmain hthread =>
      refine h.setMain (fun st' _ ↦ ?_) nofun nofun List.nodup_nil fun _ ↦ rfl
      cases st' with
      | stdout => exact h.joined .stdout (by rw [hmain]; rfl)
      | stderr => exact hthread
  | messageReported _ | messageReceived _ _ | inputWritten _ | recvEnded _ _ =>
      exact ⟨h.joined, h.asked, h.ready, h.todo, h.nodup, h.closed, h.thread_le, h.main_le⟩
  | joinedRest hmain _ =>
      exact h.setMain (fun st' _ ↦ h.joined st' (by rw [hmain]; trivial)) nofun nofun
        List.nodup_nil fun _ ↦ rfl
  | drainSelected hmain hreadable =>
      have hnodup := nodup_readable n
      rw [hreadable] at hnodup
      exact h.setMain (fun st' _ ↦ h.joined st' (by rw [hmain]; trivial)) nofun
        (fun st' hmem ↦ readable_mem (hreadable ▸ hmem)) hnodup fun _ ↦ rfl
  | timedOut hmain =>
      exact h.setMain (fun st' _ ↦ h.joined st' (by rw [hmain]; trivial)) nofun nofun
        List.nodup_nil fun _ ↦ rfl
  | @drainEnd st todo size hmain hcontent hwriters =>
      have hall : ∀ st', n.thread st' = .ended := fun st' ↦ h.joined st' (by rw [hmain]; trivial)
      have htodo := h.todo
      have hnodup := h.nodup
      rw [hmain] at htodo hnodup
      obtain ⟨hnotMem, hnodup⟩ := List.nodup_cons.mp hnodup
      -- where the main program is does not matter to `afterRead`
      have hexit : Shape rawSize { n with main := .exit } :=
        h.setMain (fun st' _ ↦ hall st') nofun nofun List.nodup_nil fun _ ↦ rfl
      have hclosed : Shape rawSize
          { n with main := .exit, closed := Function.update n.closed st true } := by
        refine ⟨hexit.joined, hexit.asked, hexit.ready, nofun, hexit.nodup, fun st' hst' ↦ ?_,
          hexit.thread_le, hexit.main_le⟩
        by_cases hst : st' = st
        · subst hst
          change n.pipe st' = _
          rw [← hcontent, ← hwriters]
        · exact h.closed st' (by simpa [hst] using hst')
      have heq : { n with closed := Function.update n.closed st true }.afterRead todo =
          { n with main := .exit, closed := Function.update n.closed st true }.afterRead todo := by
        cases todo <;> rfl
      rw [heq]
      refine hclosed.afterRead hall (fun st' hmem ↦ ?_) hnodup
      obtain ⟨hfalse, hready⟩ := htodo st' (List.mem_cons_of_mem _ hmem)
      have hst : st' ≠ st := by
        rintro rfl
        exact hnotMem hmem
      exact ⟨by simpa [hst] using hfalse, hready⟩
  | @drainRead st todo size hmain hcontent hpos hle =>
      have hall : ∀ st', n.thread st' = .ended := fun st' ↦ h.joined st' (by rw [hmain]; trivial)
      have htodo := h.todo
      have hnodup := h.nodup
      rw [hmain] at htodo hnodup
      obtain ⟨hnotMem, hnodup⟩ := List.nodup_cons.mp hnodup
      refine ⟨fun st' _ ↦ hall st', nofun, fun st' hread ↦ ?_, fun st' hmem ↦ ?_, hnodup,
        fun st' hclosed ↦ ?_, h.thread_le, fun st' ↦ ?_⟩
      · change n.thread st' = .read at hread
        rw [hall st'] at hread
        cases hread
      · have hst : st' ≠ st := by
          rintro rfl
          exact hnotMem hmem
        simpa [Slave.setPipe, hst] using htodo st' (List.mem_cons_of_mem _ hmem)
      · have hst : st' ≠ st := by
          rintro rfl
          have hfalse := h.closed_false (.inl hcontent)
          change n.closed st' = true at hclosed
          rw [hfalse] at hclosed
          cases hclosed
        simpa [Slave.setPipe, hst] using h.closed st' hclosed
      · simp only [Main.held]
        split
        · simp only [List.length_take]
          omega
        · exact Nat.zero_le _
  | @drainReadFailed st todo hmain =>
      have hall : ∀ st', n.thread st' = .ended := fun st' ↦ h.joined st' (by rw [hmain]; trivial)
      have htodo := h.todo
      have hnodup := h.nodup
      rw [hmain] at htodo hnodup
      exact h.afterRead hall (fun st' hmem ↦ htodo st' (List.mem_cons_of_mem _ hmem))
        (List.nodup_cons.mp hnodup).2
  | @drainSent st raw todo ok hmain =>
      have hall : ∀ st', n.thread st' = .ended := fun st' ↦ h.joined st' (by rw [hmain]; trivial)
      have htodo := h.todo
      have hnodup := h.nodup
      rw [hmain] at htodo hnodup
      exact h.afterRead hall htodo hnodup
  | exitSent ok hmain =>
      exact h.setMain (fun st' _ ↦ h.joined st' (by rw [hmain]; trivial)) nofun nofun
        List.nodup_nil fun _ ↦ rfl

/-- What a step sends: output, or at the end `CMD_EXIT`, and nothing after it. -/
theorem Step.msgs (hs : Step rawSize n e n' ms) (h : Shape rawSize n) :
    (n.main = .returned true ∧ n'.main = .returned true ∧ ms = []) ∨
      (n.main ≠ .returned true ∧ n'.main = .returned true ∧ ∃ status, ms = [.exit status]) ∨
      (n.main ≠ .returned true ∧ n'.main ≠ .returned true ∧ ∀ m ∈ ms, m.IsOutput rawSize) := by
  by_cases hret : n.main = .returned true
  · -- the threads have ended and the main program is done
    have hall : ∀ st, n.thread st = .ended := fun st ↦ h.joined st (by rw [hret]; trivial)
    cases hs with
    | wrote _ | closed _ | messageReported _ | messageReceived _ _ | inputWritten _ =>
        exact .inl ⟨hret, hret, rfl⟩
    | selectedEnd hthread | selectedPipe hthread _ | readEnd hthread | read hthread _ _ _
    | sent _ hthread =>
        rw [hall] at hthread
        cases hthread
    | readFailed hthread =>
        rw [hall] at hthread
        rcases hthread with hthread | hthread <;> cases hthread
    | childEnded hmain | joinedStdout hmain _ | joinedStderr hmain _ | recvEnded _ hmain
    | joinedRest hmain _ | drainSelected hmain _ | timedOut hmain | drainEnd hmain _ _
    | drainRead hmain _ _ _ | drainReadFailed hmain | drainSent _ hmain | exitSent _ hmain =>
        rw [hret] at hmain
        cases hmain
  · have hafter : ∀ (n : Slave) (todo : List Stream), (n.afterRead todo).main ≠ .returned true := by
      intro n todo
      rcases n.afterRead_main todo with ⟨_, _, -, heq⟩ | ⟨-, heq | heq⟩ <;> rw [heq] <;> exact nofun
    cases hs with
    | wrote _ | closed _ | selectedEnd _ | selectedPipe _ _ | readEnd _ | read _ _ _ _
    | readFailed _ | messageReported _ | messageReceived _ _ | inputWritten _ | recvEnded _ _ =>
        exact .inr (.inr ⟨hret, hret, nofun⟩)
    | childEnded _ | joinedStdout _ _ | joinedStderr _ _ | joinedRest _ _ | drainSelected _ _
    | timedOut _ | drainRead _ _ _ _ => exact .inr (.inr ⟨hret, nofun, nofun⟩)
    | drainEnd _ _ _ | drainReadFailed _ => exact .inr (.inr ⟨hret, hafter _ _, nofun⟩)
    | @sent st raw ok hthread =>
        refine .inr (.inr ⟨hret, hret, fun m hm ↦ ?_⟩)
        cases ok with
        | false => cases hm
        | true =>
            have hle := h.thread_le st
            rw [hthread] at hle
            obtain rfl := List.mem_singleton.mp hm
            exact ⟨st, raw, rfl, hle⟩
    | @drainSent st raw todo ok hmain =>
        refine .inr (.inr ⟨hret, hafter _ _, fun m hm ↦ ?_⟩)
        cases ok with
        | false => cases hm
        | true =>
            have hle := h.main_le st
            rw [hmain] at hle
            obtain rfl := List.mem_singleton.mp hm
            exact ⟨st, raw, rfl, by simpa [Main.held] using hle⟩
    | exitSent ok hmain =>
        cases ok with
        | false => exact .inr (.inr ⟨hret, nofun, nofun⟩)
        | true => exact .inr (.inl ⟨hret, rfl, _, rfl⟩)

end Slave

end AxiomApps.Run.Redirect
