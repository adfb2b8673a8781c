import AxiomApps.Run.RedirectOutput

/-!
# How a run with redirected output ends

Once the children have ended, every step of a slave or of the master that does not fail brings
the run closer to its end, whoever still writes into the pipes. The slave waits for no other
process, except for one that has the child's input open and does not read it while `recv_thread`
writes there.
-/

namespace AxiomApps.Run.Redirect

open EventSystem Output

variable {V ω : Type*} [DecidableEq V]

def SendThread.rank : SendThread → ℕ
  | .select => 3
  | .read => 2
  | .send _ => 6
  | .ended => 0

def RecvThread.rank : RecvThread → ℕ
  | .recv => 3
  | .output => 2
  | .select => 1
  | .ended => 0

def Main.rank : Main → ℕ
  | .waitpid => 10
  | .terminate .stdout => 9
  | .terminate .stderr => 8
  | .terminateRest => 7
  | .select => 6
  | .read _ todo => 4 + todo.length
  | .send _ _ todo => 8 + todo.length
  | .exit => 3
  | .returned _ => 0

/-- The steps of the slaves that do not fail, apart from those of their children and from the
arrival of messages of the master. -/
def SlaveEvent.Ahead : SlaveEvent → Prop
  | .selected _ | .read _ _ | .messageReceived _ | .inputWritten | .recvEnded | .joined
  | .drainSelected | .timedOut | .drainRead _ => True
  | .sent _ ok | .drainSent ok | .exitSent ok => ok = true
  | _ => False

def Event.Ahead : Event V → Prop
  | .slave _ e => e.Ahead
  | .received _ => True

/-- Those among them that wait for no other process. -/
def Event.Own (e : Event V) : Prop := e.Ahead ∧ ∀ v, e ≠ .slave v .inputWritten

namespace Slave

variable {rawSize : ℕ} {n n' : Slave} {e : SlaveEvent} {ms : List Msg} {st : Stream}

def streamRank (n : Slave) (st : Stream) : ℕ :=
  8 * (n.pipe st).content.length + (n.thread st).rank + 8 * (!n.closed st).toNat

/-- A bound for the steps a slave and the master, with its messages, have yet to take. -/
def rank (n : Slave) : ℕ :=
  n.streamRank .stdout + n.streamRank .stderr + n.recv.rank + n.main.rank

/-- A change to one stream only. -/
theorem rank_lt_of_stream (st : Stream) {k : ℕ} (hrecv : n'.recv = n.recv)
    (hother : ∀ st', st' ≠ st → n'.streamRank st' = n.streamRank st')
    (hst : n'.streamRank st + n'.main.rank + k < n.streamRank st + n.main.rank) :
    n'.rank + k < n.rank := by
  unfold rank
  rw [hrecv]
  cases st with
  | stdout =>
      rw [hother .stderr (by decide)]
      omega
  | stderr =>
      rw [hother .stdout (by decide)]
      omega

theorem afterRead_rank (n : Slave) (todo : List Stream) :
    (n.afterRead todo).main.rank ≤ 6 + todo.length := by
  rcases n.afterRead_main todo with ⟨_, _, rfl, heq⟩ | ⟨rfl, heq | heq⟩ <;> rw [heq] <;>
    simp only [Main.rank, List.length_cons, List.length_nil] <;> omega

theorem Step.rank_lt (hs : Step rawSize n e n' ms) (h : Shape rawSize n) (he : e.Ahead) :
    n'.rank + ms.length < n.rank := by
  cases hs with
  | wrote _ | closed _ | childEnded _ | readFailed _ | messageReported _ | drainReadFailed _ =>
      exact absurd he id
  | @selectedEnd st hthread | @selectedPipe st hthread _ | @readEnd st _ hthread =>
      refine rank_lt_of_stream st rfl (fun st' hst ↦ ?_) ?_
      · simp [streamRank, setThread, hst]
      · simp [streamRank, setThread, hthread, SendThread.rank]
  | @read st size hthread hcontent hpos hle =>
      have hlen := List.length_pos_of_ne_nil hcontent
      refine rank_lt_of_stream st rfl (fun st' hst ↦ ?_) ?_
      · simp [streamRank, setThread, setPipe, hst]
      · simp only [streamRank, setThread, setPipe, Function.update_self, hthread, SendThread.rank,
          List.length_drop, List.length_nil]
        omega
  | @sent st raw ok hthread =>
      obtain rfl : ok = true := he
      refine rank_lt_of_stream st rfl (fun st' hst ↦ ?_) ?_
      · simp [streamRank, setThread, hst]
      · simp [streamRank, setThread, hthread, SendThread.rank]
        omega
  | messageReceived input hrecv =>
      cases input <;> simp [rank, streamRank, hrecv, RecvThread.rank]
  | inputWritten hrecv | recvEnded hrecv _ =>
      simp [rank, streamRank, hrecv, RecvThread.rank]
  | joinedStdout hmain _ | joinedStderr hmain _ | joinedRest hmain _ | timedOut hmain =>
      simp [rank, streamRank, terminate, hmain, Main.rank]
  | @drainSelected st todo hmain hreadable =>
      have hlen : n.readable.length ≤ 2 := List.length_filter_le ..
      rw [hreadable] at hlen
      simp only [List.length_cons] at hlen
      simp only [rank, streamRank, hmain, Main.rank, List.length_nil]
      omega
  | @drainEnd st todo size hmain hcontent hwriters =>
      obtain ⟨hfalse, -⟩ := h.todo st (by rw [hmain]; exact List.mem_cons_self ..)
      have hle := afterRead_rank { n with closed := Function.update n.closed st true } todo
      have hrank : n.main.rank = 4 + todo.length := by
        rw [hmain]
        rfl
      refine rank_lt_of_stream st (afterRead_recv _ _) (fun st' hst ↦ ?_) ?_
      · simp [streamRank, hst]
      · simp only [streamRank, afterRead_pipe, afterRead_thread, afterRead_closed,
          Function.update_self, hfalse, hrank, List.length_nil, Bool.not_true, Bool.not_false,
          Bool.toNat_true, Bool.toNat_false]
        omega
  | @drainRead st todo size hmain hcontent hpos hle =>
      have hlen := List.length_pos_of_ne_nil hcontent
      refine rank_lt_of_stream st rfl (fun st' hst ↦ ?_) ?_
      · simp [streamRank, setPipe, hst]
      · simp only [streamRank, setPipe, Function.update_self, hmain, Main.rank, List.length_drop,
          List.length_nil]
        omega
  | @drainSent st raw todo ok hmain =>
      obtain rfl : ok = true := he
      have hle := n.afterRead_rank todo
      have hrank : n.main.rank = 8 + todo.length := by
        rw [hmain]
        rfl
      simp only [rank, streamRank, afterRead_pipe, afterRead_thread, afterRead_recv,
        afterRead_closed, hrank,
        if_true, List.length_singleton]
      omega
  | exitSent ok hmain =>
      obtain rfl : ok = true := he
      simp [rank, streamRank, hmain, Main.rank]

/-- A slave whose child has ended goes on until it has returned, or has to wait for
`recv_thread` to write the input. -/
theorem Shape.progress (h : Shape rawSize n) (hsize : 0 < rawSize) (hwait : n.main ≠ .waitpid)
    (hret : ∀ ok, n.main ≠ .returned ok)
    (hblocked : ¬ (n.main = .terminateRest ∧ n.recv = .output)) :
    ∃ e, e.Ahead ∧ e ≠ .inputWritten ∧ (n.next rawSize e).isSome := by
  have hread : ∀ {st : Stream}, (n.pipe st).ready = true → (n.pipe st).content ≠ [] ∨
      (n.pipe st).content = [] ∧ (n.pipe st).writers = false := by
    intro st hready
    by_cases hcontent : (n.pipe st).content = []
    · exact .inr ⟨hcontent, by simpa [Pipe.ready, hcontent] using hready⟩
    · exact .inl hcontent
  cases hmain : n.main with
  | waitpid => exact absurd hmain hwait
  | returned ok => exact absurd hmain (hret ok)
  | terminate st =>
      cases hthread : n.thread st with
      | select =>
          exact ⟨.selected st, trivial, by simp, by simp [next, hthread, h.asked st hmain]⟩
      | read =>
          refine ⟨.read st 1, trivial, by simp, ?_⟩
          rcases hread (h.ready st hthread) with hcontent | ⟨hcontent, hwriters⟩
          · simp [next, hthread, hcontent, Nat.one_le_iff_ne_zero.mpr hsize.ne']
          · simp [next, hthread, hcontent, hwriters]
      | send raw => exact ⟨.sent st true, rfl, by simp, by simp [next, hthread]⟩
      | ended =>
          refine ⟨.joined, trivial, by simp, ?_⟩
          cases st <;> simp [next, hmain, hthread]
  | terminateRest =>
      cases hrecv : n.recv with
      | select => exact ⟨.recvEnded, trivial, by simp, by simp [next, hmain, hrecv]⟩
      | recv => exact ⟨.messageReceived false, trivial, by simp, by simp [next, hrecv]⟩
      | output => exact absurd ⟨hmain, hrecv⟩ hblocked
      | ended => exact ⟨.joined, trivial, by simp, by simp [next, hmain, hrecv]⟩
  | select => exact ⟨.timedOut, trivial, by simp, by simp [next, hmain]⟩
  | read st todo =>
      obtain ⟨-, hready⟩ := h.todo st (by rw [hmain]; exact List.mem_cons_self ..)
      refine ⟨.drainRead 1, trivial, by simp, ?_⟩
      rcases hread hready with hcontent | ⟨hcontent, hwriters⟩
      · simp [next, hmain, hcontent, Nat.one_le_iff_ne_zero.mpr hsize.ne']
      · simp [next, hmain, hcontent, hwriters]
  | send st raw todo => exact ⟨.drainSent true, rfl, by simp, by simp [next, hmain]⟩
  | exit => exact ⟨.exitSent true, rfl, by simp, by simp [next, hmain]⟩

end Slave

section End

variable {cfg : Config V} {io : Stdio ω} {s s' : State V ω} {e : Event V} {w : Stream → ω}
variable {tr : List (State V ω × Event V)}

def weight (cfg : Config V) (s : State V ω) : ℕ :=
  ∑ v ∈ cfg.nodes.toList.toFinset, ((s.slave v).rank + (s.link v).length)

theorem weight_lt {v : V} (hother : ∀ u, u ≠ v → s'.slave u = s.slave u ∧ s'.link u = s.link u)
    (hv : (s'.slave v).rank + (s'.link v).length < (s.slave v).rank + (s.link v).length) :
    weight cfg s' < weight cfg s := by
  refine Finset.sum_lt_sum (fun u _ ↦ ?_) ⟨v, List.mem_toFinset.mpr (cfg.nodes.mem v), hv⟩
  by_cases hu : u = v
  · subst hu
    exact hv.le
  · rw [(hother u hu).1, (hother u hu).2]

theorem step_weight_lt (hi : Inv cfg s) (he : e.Ahead) (hs : next cfg io s e = some s') :
    weight cfg s' < weight cfg s := by
  obtain ⟨v, e', n', ms, rfl, hstep, rfl⟩ | ⟨v, msg, rest, m, rfl, -, hlink, -, rfl⟩ :=
    next_cases hs
  · have hlt := hstep.rank_lt (hi.shape v) he
    refine weight_lt (v := v) (fun u hu ↦ by simp [hu]) ?_
    simp only [Function.update_self, List.length_append]
    omega
  · refine weight_lt (v := v) (fun u hu ↦ by simp [hu]) ?_
    simp [hlink]

theorem length_le_weight (hi : Inv cfg s) (h : Exec (next cfg io) s tr s')
    (hahead : Meets (fun _ e ↦ e.Ahead) tr) : tr.length + weight cfg s' ≤ weight cfg s := by
  suffices hall : Inv cfg s' ∧ tr.length + weight cfg s' ≤ weight cfg s from hall.2
  refine h.trace_invariant (I := fun tr s' ↦ Inv cfg s' ∧ tr.length + weight cfg s' ≤ weight cfg s)
    ⟨hi, by simp⟩ (fun tr s₁ e s₂ hI he hs ↦ ⟨hI.1.step hs, ?_⟩) hahead
  have hlt := step_weight_lt hI.1 he hs
  have hle := hI.2
  simp only [List.length_append, List.length_singleton]
  omega

/-- `left` is set when the last `CMD_EXIT` is counted, and no slave has failed to send its own. -/
structure Ends (s : State V ω) : Prop where
  counter : s.master.exit.left = false → s.master.exit.exitCounter ≠ 0
  sent : ∀ v, (s.slave v).main ≠ .returned false

theorem Ends.step (h : Ends s) (he : e.Lossless) (hs : next cfg io s e = some s') : Ends s' := by
  obtain ⟨v, e', n', ms, rfl, hstep, rfl⟩ | ⟨v, msg, rest, m, rfl, hleft, -, hm, rfl⟩ :=
    next_cases hs
  · refine ⟨h.counter, fun u ↦ ?_⟩
    by_cases hu : u = v
    · subst hu
      have hafter : ∀ (n : Slave) (todo : List Stream),
          (n.afterRead todo).main ≠ .returned false := by
        intro n todo
        rcases n.afterRead_main todo with ⟨_, _, -, heq⟩ | ⟨-, heq | heq⟩ <;> rw [heq] <;>
          exact nofun
      simp only [Function.update_self]
      cases hstep with
      | wrote _ | closed _ | selectedEnd _ | selectedPipe _ _ | readEnd _ | read _ _ _ _
      | readFailed _ | sent _ _ | messageReported _ | messageReceived _ _ | inputWritten _
      | recvEnded _ _ => exact h.sent u
      | drainEnd _ _ _ | drainReadFailed _ | drainSent _ _ => exact hafter _ _
      | exitSent ok _ =>
          obtain rfl : ok = true := he
          exact nofun
      | _ => exact nofun
    · simpa [hu] using h.sent u
  · refine ⟨fun hl ↦ ?_, h.sent⟩
    cases msg with
    | sendTo st raw =>
        obtain ⟨o, -, rfl⟩ := Option.map_eq_some_iff.mp hm
        exact h.counter hleft
    | exit status =>
        obtain rfl := Option.some.inj hm
        simpa [Exit.masterReceiver] using hl

theorem Ends.exec [Nonempty V] (h : Exec (next cfg io) (init cfg w) tr s)
    (hloss : Meets (fun _ e ↦ e.Lossless) tr) : Ends s := by
  refine h.invariant ⟨fun _ ↦ ?_, fun _ hret ↦ by cases hret⟩
    (fun _ _ _ hI he hs ↦ hI.step he hs) hloss
  have hpos := cfg.nodes.nnodes_pos (Classical.arbitrary V)
  simp only [init]
  omega

omit [DecidableEq V] in
/-- Where no slave can go on and nothing is under way, the master has left. -/
theorem Ends.left_of_counted (h : Ends s) (hi : Inv cfg s)
    (hall : ∀ v, (s.slave v).main = .returned true ∧ s.link v = []) :
    s.master.exit.left = true := by
  by_contra hleft
  refine h.counter (by simpa using hleft) ?_
  have hcount : cfg.nodes.toList.countP (counted s.slave s.link) = cfg.nodes.toList.length :=
    List.countP_eq_length.mpr fun v _ ↦ by simp [counted, hall v]
  rw [hi.counter, hcount, Nodes.nnodes, sub_self]

/-- Once all children have ended, and unless a message has been lost, axiom-run goes on until
the master has left its loop, in a number of steps bounded by what is left to do. It waits for
another process only at the join of a `recv_thread` that is writing input. -/
theorem redirect_run_ends [Nonempty V] (cfg : Config V) (io : Stdio ω) (w : Stream → ω)
    (h : Exec (next cfg io) (init cfg w) tr s) (hloss : Meets (fun _ e ↦ e.Lossless) tr)
    (hended : ∀ v, (s.slave v).main ≠ .waitpid) :
    (∀ tr' s', Exec (next cfg io) s tr' s' → Meets (fun _ e ↦ e.Ahead) tr' →
      tr'.length + weight cfg s' ≤ weight cfg s) ∧
    (s.master.exit.left = true ∨ (∃ e s', e.Own ∧ next cfg io s e = some s') ∨
      ∃ v, (s.slave v).main = .terminateRest ∧ (s.slave v).recv = .output) := by
  have hi := inv_exec h
  have hends : Ends s := .exec h hloss
  refine ⟨fun tr' s' h' hahead ↦ length_le_weight hi h' hahead, ?_⟩
  by_cases hleft : s.master.exit.left = true
  · exact .inl hleft
  · refine .inr ?_
    by_contra hnone
    obtain ⟨hstuck, hblocked⟩ := not_or.mp hnone
    refine hleft (hends.left_of_counted hi fun v ↦ ⟨?_, ?_⟩)
    · by_contra hret
      have hret' : ∀ ok, (s.slave v).main ≠ .returned ok := by
        intro ok
        cases ok with
        | true => exact hret
        | false => exact hends.sent v
      obtain ⟨e, he, hne, hsome⟩ := (hi.shape v).progress cfg.rawSize_pos (hended v) hret'
        fun hv ↦ hblocked ⟨v, hv⟩
      obtain ⟨r, hr⟩ := Option.isSome_iff_exists.mp hsome
      refine hstuck ⟨.slave v e, _, ⟨he, ?_⟩, by rw [next, hr, Option.map_some]⟩
      rintro u ⟨⟩
      exact hne rfl
    · cases hlink : s.link v with
      | nil => rfl
      | cons msg rest =>
          have hqueue := hi.queue v
          rw [hlink] at hqueue
          have hmsg : msg.IsOutput cfg.rawSize ∨ ∃ status, msg = .exit status := by
            rcases hqueue.cons_cases with ⟨hmsg, -⟩ | ⟨-, -, hmsg⟩
            · exact .inl hmsg
            · exact .inr hmsg
          obtain ⟨m', hm'⟩ := masterReceiver_isSome cfg io s.master (cfg.nodeId v) hmsg
          have hnext := next_received (by simpa using hleft) hlink hm'
          exact absurd ⟨.received v, _, ⟨trivial, by simp⟩, hnext⟩ hstuck

theorem redirect_late_run_ends : ∃ tr s,
    Exec (next single byteStdio) (init single fun _ ↦ ()) tr s ∧
      (∀ v, (s.slave v).main ≠ .waitpid) ∧
      (∀ tr' s', Exec (next single byteStdio) s tr' s' → Meets (fun _ e ↦ e.Ahead) tr' →
        tr'.length + weight single s' ≤ weight single s) ∧
      (s.master.exit.left = true ∨ (∃ e s', e.Own ∧ next single byteStdio s e = some s') ∨
        ∃ v, (s.slave v).main = .terminateRest ∧ (s.slave v).recv = .output) := by
  have hrun : ∃ tr s, Exec (next single byteStdio) (init single fun _ ↦ ()) tr s ∧
      Meets (fun _ e ↦ e.Lossless) tr ∧ (s.slave ()).main = .terminate .stdout :=
    Exec.exists_of_run (lateEvents.take 4) (by decide)
  obtain ⟨tr, s, hexec, hloss, hmain⟩ := hrun
  have hended : ∀ v, (s.slave v).main ≠ .waitpid := by
    rintro ⟨⟩
    rw [hmain]
    exact nofun
  exact ⟨tr, s, hexec, hended, redirect_run_ends single byteStdio _ hexec hloss hended⟩

end End

end AxiomApps.Run.Redirect
