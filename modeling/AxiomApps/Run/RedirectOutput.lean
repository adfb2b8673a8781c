import AxiomApps.Lib.Execution
import AxiomApps.Run.Exit
import AxiomApps.Run.Output
import AxiomApps.Run.Redirect

/-!
# Redirected output from the child to the master's files

The master passes the output it receives from the slaves to `emit` and leaves its loop with the
last `CMD_EXIT`. Messages from a slave arrive in the order in which they were sent. Whatever
the threads and processes do, the bytes of a stream stay in order on their way through the
pipe, the slave, the network and the master's buffer.
-/

namespace AxiomApps.Run.Redirect

open EventSystem Output

/-! ## The system -/

/-- The parameters of a run with the redirect service. -/
structure Config (V : Type*) where
  nodes : Nodes V
  nodeId : V → ℕ
  nodeId_inj : Function.Injective nodeId
  nodeId_lt : ∀ v, nodeId v < maxNumNodes
  flags : ℕ
  mode : ℕ
  exitService : Bool
  /-- `sizeof (buffer.raw)` -/
  rawSize : ℕ
  rawSize_pos : 0 < rawSize
  maxBufferSize : ℕ
  rawSize_le : rawSize ≤ maxBufferSize

/-- The buffers and files for both streams, and what `master_receiver` knows of the end. -/
structure Master (ω : Type*) where
  out : Stream → Info × Fout ω
  exit : Exit.Master

structure State (V ω : Type*) where
  slave : V → Slave
  link : V → List Msg
  master : Master ω

inductive Event (V : Type*)
  | slave (v : V) (e : SlaveEvent)
  | received (v : V)
  deriving DecidableEq

variable {V ω : Type*} [DecidableEq V]

/-- One turn of the loop of `master_receiver`, with `flush` after the last. It fails where an
assertion of `emit` does. -/
def masterReceiver (cfg : Config V) (io : Stdio ω) (m : Master ω) (node : ℕ) :
    Msg → Option (Master ω)
  | .sendTo st raw =>
      (emit io cfg.maxBufferSize cfg.flags node raw (m.out st)).map fun o ↦
        { m with out := Function.update m.out st o }
  | .exit status =>
      let exit := Exit.masterReceiver cfg.mode m.exit status
      some { out := fun st ↦
               if exit.left then flush io cfg.flags maxNumNodes (m.out st) else m.out st
             exit := exit }

def next (cfg : Config V) (io : Stdio ω) (s : State V ω) : Event V → Option (State V ω)
  | .slave v e =>
      ((s.slave v).next cfg.rawSize e).map fun r ↦
        { s with slave := Function.update s.slave v r.1
                 link := Function.update s.link v (s.link v ++ r.2) }
  | .received v =>
      match s.master.exit.left, s.link v with
      | false, msg :: rest =>
          (masterReceiver cfg io s.master (cfg.nodeId v) msg).map fun m ↦
            { s with link := Function.update s.link v rest, master := m }
      | _, _ => none

def init (cfg : Config V) (w : Stream → ω) : State V ω where
  slave := fun _ ↦ .start
  link := fun _ ↦ []
  master := ⟨fun st ↦ Output.start (w st), ⟨cfg.exitService, 0, cfg.nodes.nnodes, false⟩⟩

/-! ## Whole runs -/

/-- `CMD_EXIT` is the last message, if it has been sent. -/
def Queue (rawSize : ℕ) (main : Main) (q : List Msg) : Prop :=
  if main = .returned true then
    q = [] ∨ ∃ l status, q = l ++ [.exit status] ∧ ∀ m ∈ l, m.IsOutput rawSize
  else ∀ m ∈ q, m.IsOutput rawSize

/-- The slave's `CMD_EXIT` has been counted. -/
def counted (slave : V → Slave) (link : V → List Msg) (v : V) : Bool :=
  (slave v).main = .returned true ∧ link v = []

structure Inv (cfg : Config V) (s : State V ω) : Prop where
  shape : ∀ v, (s.slave v).Shape cfg.rawSize
  queue : ∀ v, Queue cfg.rawSize (s.slave v).main (s.link v)
  counter : s.master.exit.exitCounter =
    cfg.nodes.nnodes - cfg.nodes.toList.countP (counted s.slave s.link)
  left : s.master.exit.left = true → s.master.exit.exitCounter = 0 ∧
    ∀ v st, (s.master.out st).1 (cfg.nodeId v) = []

/-- The bytes of a stream: those written, those the master keeps, those under way and those
unsent. -/
def flow (cfg : Config V) (s : State V ω) (v : V) (st : Stream) : List UInt8 :=
  (s.master.out st).2.data (cfg.nodeId v) ++ (s.master.out st).1 (cfg.nodeId v) ++
    (s.link v).flatMap (Msg.raw st) ++ (s.slave v).unsent st

def Event.written (v : V) (st : Stream) : Event V → List UInt8
  | .slave w e => if w = v then e.written st else []
  | .received _ => []

def Event.Lossless : Event V → Prop
  | .slave _ e => e.Lossless
  | .received _ => True

/-- What the child of a node and its descendants have written. -/
def written (tr : List (State V ω × Event V)) (v : V) (st : Stream) : List UInt8 :=
  tr.flatMap fun p ↦ p.2.written v st

section Steps

variable {cfg : Config V} {io : Stdio ω} {s s' : State V ω} {e : Event V} {v : V}

omit [DecidableEq V] in
theorem inv_init (cfg : Config V) (w : Stream → ω) : Inv cfg (init cfg w) where
  shape _ := .start
  queue _ := by simp [init, Queue, Slave.start]
  counter := by
    have hnone : counted (init cfg w).slave (init cfg w).link = fun _ ↦ false := rfl
    rw [hnone]
    simp [init]
  left h := by cases h

omit [DecidableEq V] in
theorem flow_init (cfg : Config V) (w : Stream → ω) (v : V) (st : Stream) :
    flow cfg (init cfg w) v st = [] := by
  simp [flow, init, Output.start, Fout.data, Slave.start, Slave.unsent, SendThread.held, Main.held]

/-- What a step can do. -/
theorem next_cases (h : next cfg io s e = some s') :
    (∃ v e' n' ms, e = .slave v e' ∧ Slave.Step cfg.rawSize (s.slave v) e' n' ms ∧
      s' = { s with slave := Function.update s.slave v n'
                    link := Function.update s.link v (s.link v ++ ms) }) ∨
    (∃ v msg rest m, e = .received v ∧ s.master.exit.left = false ∧ s.link v = msg :: rest ∧
      masterReceiver cfg io s.master (cfg.nodeId v) msg = some m ∧
      s' = { s with link := Function.update s.link v rest, master := m }) := by
  cases e with
  | slave v e' =>
      obtain ⟨⟨n', ms⟩, hnext, rfl⟩ := Option.map_eq_some_iff.mp h
      exact .inl ⟨v, e', n', ms, rfl, Slave.step_of_next hnext, rfl⟩
  | received v =>
      simp only [next] at h
      split at h
      · next msg rest hleft hlink =>
          obtain ⟨m, hm, rfl⟩ := Option.map_eq_some_iff.mp h
          exact .inr ⟨v, msg, rest, m, rfl, hleft, hlink, hm, rfl⟩
      · cases h

theorem next_received {msg : Msg} {rest : List Msg} {m : Master ω}
    (hleft : s.master.exit.left = false) (hlink : s.link v = msg :: rest)
    (hm : masterReceiver cfg io s.master (cfg.nodeId v) msg = some m) :
    next cfg io s (.received v) =
      some { s with link := Function.update s.link v rest, master := m } := by
  simp only [next, hleft, hlink, hm, Option.map_some]

/-- The first message is output, with more to come if `CMD_EXIT` has been sent, or it is
`CMD_EXIT` and the last. -/
theorem Queue.cons_cases {rawSize : ℕ} {main : Main} {msg : Msg} {rest : List Msg}
    (h : Queue rawSize main (msg :: rest)) :
    (msg.IsOutput rawSize ∧ Queue rawSize main rest ∧ (main = .returned true → rest ≠ [])) ∨
      (main = .returned true ∧ rest = [] ∧ ∃ status, msg = .exit status) := by
  unfold Queue at h ⊢
  split_ifs at h ⊢ with hmain
  · obtain h | ⟨l, status, heq, hl⟩ := h
    · cases h
    · cases l with
      | nil =>
          obtain ⟨rfl, rfl⟩ := List.cons.inj heq
          exact .inr ⟨hmain, rfl, status, rfl⟩
      | cons m l =>
          obtain ⟨rfl, rfl⟩ := List.cons.inj heq
          refine .inl ⟨hl msg (by simp), .inr ⟨l, status, rfl, fun m hm ↦ hl m (by simp [hm])⟩, ?_⟩
          exact fun _ ↦ by simp
  · exact .inl ⟨h msg (by simp), fun m hm ↦ h m (by simp [hm]), fun hret ↦ absurd hret hmain⟩

/-- The master writes or keeps what it is sent, for the node that sent it. -/
theorem masterReceiver_data {m m' : Master ω} {msg : Msg}
    (h : masterReceiver cfg io m (cfg.nodeId v) msg = some m')
    (hmsg : msg.IsOutput cfg.rawSize ∨ ∃ status, msg = .exit status) (w : V) (st : Stream) :
    (m'.out st).2.data (cfg.nodeId w) ++ (m'.out st).1 (cfg.nodeId w) =
      (m.out st).2.data (cfg.nodeId w) ++ (m.out st).1 (cfg.nodeId w) ++
        if v = w then msg.raw st else [] := by
  rcases hmsg with ⟨st', raw, rfl, hle⟩ | ⟨status, rfl⟩
  · obtain ⟨o, ho, rfl⟩ := Option.map_eq_some_iff.mp h
    obtain ⟨rest, f', hemit, -, bs, hbs, heq⟩ : Emitted cfg.maxBufferSize (cfg.nodeId v) raw
        (m.out st') (emit io cfg.maxBufferSize cfg.flags (cfg.nodeId v) raw (m.out st')) :=
      emit_spec io (hle.trans cfg.rawSize_le)
    obtain rfl := Option.some.inj (ho.symm.trans hemit)
    by_cases hst : st' = st
    · subst hst
      simp only [Function.update_self, hbs _]
      by_cases hw : v = w
      · subst hw
        simp only [if_true, Function.update_self, Msg.raw, List.append_assoc, heq]
      · have hne : cfg.nodeId w ≠ cfg.nodeId v := fun heq ↦ hw (cfg.nodeId_inj heq).symm
        simp [hw, hne]
    · simp [Msg.raw, hst, Ne.symm hst]
  · obtain rfl := Option.some.inj h
    simp only [Msg.raw]
    split
    · simp only [(flush_spec io cfg.flags maxNumNodes (m.out st)).1, ite_self, List.append_nil]
    · simp

omit [DecidableEq V] in
theorem masterReceiver_isSome (cfg : Config V) (io : Stdio ω) (m : Master ω) (node : ℕ) {msg : Msg}
    (hmsg : msg.IsOutput cfg.rawSize ∨ ∃ status, msg = .exit status) :
    ∃ m', masterReceiver cfg io m node msg = some m' := by
  rcases hmsg with ⟨st, raw, rfl, hle⟩ | ⟨status, rfl⟩
  · obtain ⟨rest, f', hemit, -⟩ : Emitted cfg.maxBufferSize node raw (m.out st)
        (emit io cfg.maxBufferSize cfg.flags node raw (m.out st)) :=
      emit_spec io (hle.trans cfg.rawSize_le)
    exact ⟨_, by rw [masterReceiver, hemit, Option.map_some]⟩
  · exact ⟨_, rfl⟩

/-- A step passes the bytes of a stream on and adds what is written; only messages that get
lost take bytes with them. -/
theorem flow_step (hi : Inv cfg s) (hs : next cfg io s e = some s') (v : V) (st : Stream) :
    (flow cfg s' v st).Sublist (flow cfg s v st ++ e.written v st) ∧
      (e.Lossless → flow cfg s' v st = flow cfg s v st ++ e.written v st) := by
  obtain ⟨w, e', n', ms, rfl, hstep, rfl⟩ | ⟨w, msg, rest, m, rfl, -, hlink, hm, rfl⟩ :=
    next_cases hs
  · by_cases hw : w = v
    · subst hw
      obtain ⟨hsub, heq⟩ := hstep.unsent (hi.shape w) st
      simp only [flow, Function.update_self, List.flatMap_append, Event.written, if_true,
        List.append_assoc]
      refine ⟨?_, fun hl ↦ ?_⟩
      · exact ((hsub.append_left _).append_left _).append_left _
      · rw [heq hl]
    · simp [flow, Event.written, hw, Ne.symm hw]
  · have hqueue := hi.queue w
    rw [hlink] at hqueue
    have hmsg : msg.IsOutput cfg.rawSize ∨ ∃ status, msg = .exit status := by
      rcases hqueue.cons_cases with ⟨hmsg, -⟩ | ⟨-, -, hmsg⟩
      · exact .inl hmsg
      · exact .inr hmsg
    have heq : flow cfg { s with link := Function.update s.link w rest, master := m } v st =
        flow cfg s v st ++ (Event.received w).written v st := by
      simp only [flow, Event.written, List.append_nil, masterReceiver_data hm hmsg v st]
      by_cases hw : w = v
      · subst hw
        simp [hlink]
      · simp [hw, Ne.symm hw]
    exact ⟨heq ▸ .refl _, fun _ ↦ heq⟩

theorem Inv.step (hi : Inv cfg s) (hs : next cfg io s e = some s') : Inv cfg s' := by
  obtain ⟨v, e', n', ms, rfl, hstep, rfl⟩ | ⟨v, msg, rest, m, rfl, hleft, hlink, hm, rfl⟩ :=
    next_cases hs
  · have hshape := hi.shape v
    have hqueue := hi.queue v
    have hcounted : counted (Function.update s.slave v n')
        (Function.update s.link v (s.link v ++ ms)) = counted s.slave s.link := by
      funext w
      by_cases hw : w = v
      · subst hw
        rcases hstep.msgs hshape with ⟨hold, hnew, rfl⟩ | ⟨hold, hnew, status, rfl⟩ |
          ⟨hold, hnew, -⟩
        · simp [counted, hold, hnew]
        · simp [counted, hold]
        · simp [counted, hold, hnew]
      · simp [counted, hw]
    refine ⟨fun w ↦ ?_, fun w ↦ ?_, ?_, hi.left⟩
    · by_cases hw : w = v
      · subst hw
        simpa using hstep.shape hshape
      · simpa [hw] using hi.shape w
    · by_cases hw : w = v
      · subst hw
        simp only [Function.update_self]
        rcases hstep.msgs hshape with ⟨hold, hnew, rfl⟩ | ⟨hold, hnew, status, rfl⟩ |
          ⟨hold, hnew, hms⟩
        · simpa [hold, hnew] using hqueue
        · rw [Queue, if_neg hold] at hqueue
          rw [Queue, if_pos hnew]
          exact .inr ⟨_, status, rfl, hqueue⟩
        · rw [Queue, if_neg hold] at hqueue
          rw [Queue, if_neg hnew]
          intro m hm
          rcases List.mem_append.mp hm with hm | hm
          · exact hqueue m hm
          · exact hms m hm
      · simpa [hw] using hi.queue w
    · rw [hcounted]
      exact hi.counter
  · have hqueue := hi.queue v
    rw [hlink] at hqueue
    have hbefore : counted s.slave s.link v = false := by simp [counted, hlink]
    rcases hqueue.cons_cases with ⟨⟨st, raw, rfl, hle⟩, hrest, hmore⟩ | ⟨hret, rfl, status, rfl⟩
    · -- output: the end is still to come
      have hcounted : counted s.slave (Function.update s.link v rest) =
          counted s.slave s.link := by
        funext w
        by_cases hw : w = v
        · subst hw
          by_cases hret : (s.slave w).main = .returned true
          · simp [counted, hmore hret, hlink]
          · simp [counted, hret]
        · simp [counted, hw]
      obtain ⟨o, -, rfl⟩ := Option.map_eq_some_iff.mp hm
      refine ⟨hi.shape, fun w ↦ ?_, ?_, fun hl ↦ ?_⟩
      · by_cases hw : w = v
        · subst hw
          simpa using hrest
        · simpa [hw] using hi.queue w
      · rw [hcounted]
        exact hi.counter
      · change s.master.exit.left = true at hl
        rw [hleft] at hl
        cases hl
    · -- the slave's `CMD_EXIT` is counted
      obtain rfl := Option.some.inj hm
      have hcount : cfg.nodes.toList.countP (counted s.slave (Function.update s.link v [])) =
          cfg.nodes.toList.countP (counted s.slave s.link) + 1 := by
        refine cfg.nodes.countP_succ hbefore (by simp [counted, hret]) fun w hw ↦ ?_
        simp [counted, hw]
      refine ⟨hi.shape, fun w ↦ ?_, ?_, fun hl ↦ ?_⟩
      · by_cases hw : w = v
        · subst hw
          simp [Queue, hret]
        · simpa [hw] using hi.queue w
      · have hcounter := hi.counter
        simp only [hcount, Exit.masterReceiver]
        omega
      · have hzero : s.master.exit.exitCounter - 1 = 0 := by
          simpa [Exit.masterReceiver] using hl
        refine ⟨hzero, fun w st ↦ ?_⟩
        change (if (Exit.masterReceiver cfg.mode s.master.exit status).left = true then _ else
          _ : Info × Fout ω).1 _ = _
        rw [if_pos hl]
        exact (flush_spec io cfg.flags maxNumNodes _).2 _ (cfg.nodeId_lt w)

theorem inv_exec {w : Stream → ω} {tr : List (State V ω × Event V)}
    (h : Exec (next cfg io) (init cfg w) tr s) : Inv cfg s :=
  h.invariant (C := fun _ _ ↦ True) (inv_init cfg w) (fun _ _ _ hi _ hs ↦ hi.step hs)
    fun _ _ ↦ trivial

theorem flow_exec {w : Stream → ω} {tr : List (State V ω × Event V)}
    (h : Exec (next cfg io) (init cfg w) tr s) (v : V) (st : Stream) :
    (flow cfg s v st).Sublist (written tr v st) ∧
      (Meets (fun _ e ↦ e.Lossless) tr → flow cfg s v st = written tr v st) := by
  induction h with
  | nil => simp [flow_init, written]
  | @snoc tr s s' e hexec hs ih =>
      obtain ⟨hsub, heq⟩ := flow_step (inv_exec hexec) hs v st
      have hsnoc : written (tr ++ [(s, e)]) v st = written tr v st ++ e.written v st := by
        simp [written]
      rw [hsnoc]
      refine ⟨hsub.trans (ih.1.append_right _), fun hmeets ↦ ?_⟩
      obtain ⟨htr, he⟩ := meets_append.mp hmeets
      rw [heq (meets_singleton.mp he), ih.2 htr]

omit [DecidableEq V] in
/-- When the master has left, all it was to receive has been written. -/
theorem Inv.flow_of_left (hi : Inv cfg s) (hleft : s.master.exit.left = true) (v : V)
    (st : Stream) : flow cfg s v st =
      (s.master.out st).2.data (cfg.nodeId v) ++ ((s.slave v).pipe st).content := by
  obtain ⟨hzero, hempty⟩ := hi.left hleft
  have hcounter := hi.counter
  have hall : cfg.nodes.toList.countP (counted s.slave s.link) = cfg.nodes.toList.length := by
    unfold Nodes.nnodes at hcounter
    omega
  have hv : counted s.slave s.link v = true := List.countP_eq_length.mp hall v (cfg.nodes.mem v)
  obtain ⟨hmain, hlink⟩ : (s.slave v).main = .returned true ∧ s.link v = [] := by
    simpa [counted] using hv
  have hended := (hi.shape v).joined st (by rw [hmain]; trivial)
  simp [flow, hempty v st, hlink, Slave.unsent, hended, hmain, SendThread.held, Main.held]

/-- The master receives the last output and the last `CMD_EXIT`. -/
theorem exists_last_run (cfg : Config V) (io : Stdio ω) {st : Stream} {raw : List UInt8}
    {status : ℕ} (hleft : s.master.exit.left = false) (hone : s.master.exit.exitCounter = 1)
    (hlink : s.link v = [.sendTo st raw, .exit status]) (hle : raw.length ≤ cfg.rawSize) :
    ∃ tr s', Exec (next cfg io) s tr s' ∧ Meets (fun _ e ↦ e.Lossless) tr ∧
      s'.master.exit.left = true ∧ s'.slave = s.slave ∧ ∀ w st, written tr w st = [] := by
  obtain ⟨m, hm⟩ := masterReceiver_isSome cfg io s.master (cfg.nodeId v) (.inl ⟨st, raw, rfl, hle⟩)
  have hexit : m.exit = s.master.exit := by
    obtain ⟨o, -, rfl⟩ := Option.map_eq_some_iff.mp hm
    rfl
  have hfirst := next_received hleft hlink hm
  have hsecond : next cfg io _ (.received v) = some _ := next_received
    (s := { s with link := Function.update s.link v [.exit status], master := m })
    ((congrArg Exit.Master.left hexit).trans hleft) (Function.update_self ..) rfl
  refine ⟨_, _, (Exec.nil.snoc hfirst).snoc hsecond, ?_, ?_, rfl, fun w st ↦ ?_⟩
  · exact meets_append.mpr ⟨meets_append.mpr ⟨meets_nil, meets_singleton.mpr trivial⟩,
      meets_singleton.mpr trivial⟩
  · simp [Exit.masterReceiver, hexit, hone]
  · simp [written, Event.written]

end Steps

/-- When the master has left its loop, what it has written for a stream of a node is what the
child has written to it, in order, up to messages that were lost. If none was, it is a first
part of it; and all of it if the slave has read the end of the stream. -/
theorem redirected_output_exact (cfg : Config V) (io : Stdio ω) (w : Stream → ω)
    {tr : List (State V ω × Event V)} {s : State V ω} (h : Exec (next cfg io) (init cfg w) tr s)
    (hleft : s.master.exit.left = true) (v : V) (st : Stream) :
    ((s.master.out st).2.data (cfg.nodeId v)).Sublist (written tr v st) ∧
      (Meets (fun _ e ↦ e.Lossless) tr →
        (s.master.out st).2.data (cfg.nodeId v) <+: written tr v st ∧
        ((s.slave v).closed st = true →
          (s.master.out st).2.data (cfg.nodeId v) = written tr v st)) := by
  have hi := inv_exec h
  obtain ⟨hsub, heq⟩ := flow_exec h v st
  rw [hi.flow_of_left hleft] at hsub heq
  refine ⟨(List.sublist_append_left _ _).trans hsub, fun hmeets ↦ ⟨⟨_, heq hmeets⟩, ?_⟩⟩
  intro hclosed
  have hpipe := (hi.shape v).closed st hclosed
  rw [← heq hmeets, hpipe, List.append_nil]

theorem mem_unit (v : Unit) : v ∈ [()] := List.mem_singleton.mpr rfl

/-- One node. -/
def single : Config Unit where
  nodes := ⟨[()], List.nodup_singleton (), mem_unit⟩
  nodeId _ := 1
  nodeId_inj _ _ _ := rfl
  nodeId_lt _ := Nat.le_of_ble_eq_true rfl
  flags := 0
  mode := 0
  exitService := true
  rawSize := 4
  rawSize_pos := Nat.succ_pos 3
  maxBufferSize := 4
  rawSize_le := Nat.le_refl 4

/-- The child writes two bytes and ends before its slave has read them. -/
def lateEvents : List (Event Unit) :=
  ([.wrote .stdout [111, 107], .closed .stdout, .closed .stderr, .childEnded 0,
    .selected .stdout, .joined, .selected .stderr, .joined, .recvEnded, .joined,
    .drainSelected, .drainRead 2, .drainSent true, .drainRead 1,
    .drainSelected, .drainRead 1, .exitSent true] : List SlaveEvent).map (.slave ())

instance (e : Event V) : Decidable e.Lossless :=
  match e with
  | .slave _ (.sent _ ok) => inferInstanceAs (Decidable (ok = true))
  | .slave _ (.drainSent ok) => inferInstanceAs (Decidable (ok = true))
  | .slave _ (.exitSent ok) => inferInstanceAs (Decidable (ok = true))
  | .slave _ (.wrote _ _) | .slave _ (.closed _) | .slave _ (.childEnded _) | .slave _ (.selected _)
  | .slave _ (.read _ _) | .slave _ (.readFailed _) | .slave _ .messageReported
  | .slave _ (.messageReceived _) | .slave _ .inputWritten | .slave _ .recvEnded
  | .slave _ .joined | .slave _ .drainSelected | .slave _ .timedOut | .slave _ (.drainRead _)
  | .slave _ .drainReadFailed | .received _ => .isTrue trivial

theorem late_run : ∃ tr s, Exec (next single byteStdio) (init single fun _ ↦ ()) tr s ∧
    Meets (fun _ e ↦ e.Lossless) tr ∧
    (s.link () = [.sendTo .stdout [111, 107], .exit 0] ∧ (s.slave ()).closed .stdout = true ∧
      s.master.exit = ⟨true, 0, 1, false⟩ ∧ written tr () .stdout = [111, 107]) :=
  Exec.exists_of_run lateEvents (by decide)

theorem redirected_output_late : ∃ tr s,
    Exec (next single byteStdio) (init single fun _ ↦ ()) tr s ∧ s.master.exit.left = true ∧
      (s.master.out .stdout).2.data 1 = [111, 107] := by
  obtain ⟨tr, s, hexec, hloss, hlink, hclosed, hexit, hwritten⟩ := late_run
  obtain ⟨tr', s', hexec', hloss', hleft, hslave, hnone⟩ :=
    exists_last_run single byteStdio (by rw [hexit]) (by rw [hexit]) hlink (by decide)
  have hrun := hexec.trans hexec'
  have hall := ((redirected_output_exact single byteStdio _ hrun hleft () .stdout).2
    (meets_append.mpr ⟨hloss, hloss'⟩)).2 (by rw [hslave, hclosed])
  refine ⟨_, _, hrun, hleft, hall.trans ?_⟩
  have hnone' := hnone () .stdout
  simp only [written, List.flatMap_append] at hwritten hnone' ⊢
  rw [hwritten, hnone', List.append_nil]

end AxiomApps.Run.Redirect
