import AxiomApps.Lib.Execution
import AxiomApps.Run.Services

/-!
# How a run of axiom-run ends

A slave tells the master with `CMD_EXIT` that its child has ended; so does the handler of
a termination signal, which then leaves the process. The handler may start at any moment
once it is installed, also while it runs already for another signal, and what it
interrupts is not resumed. The master counts the messages and leaves its loop when there
have been as many as nodes.
-/

namespace AxiomApps.Run.Exit

open EventSystem

/-! ## Wait statuses -/

def wifexited (status : ℕ) : Bool := status % 128 = 0

def wexitstatus (status : ℕ) : ℕ := status / 256 % 256

def wtermsig (status : ℕ) : ℕ := status % 128

def wifsignaled (status : ℕ) : Bool := 0 < status % 128 ∧ status % 128 < 127

/-- What the exit mode flags make of two statuses, the one kept so far and a new one. -/
def combine (mode kept status : ℕ) : ℕ :=
  if wifexited status then
    if wifexited kept then
      match mode with
      | 0 => if wexitstatus kept < wexitstatus status then status else kept
      | 1 => if wexitstatus status < wexitstatus kept then status else kept
      | 2 => status
      | _ => kept
    else kept
  else if wifexited kept then
    if mode = 5 then kept else status
  else kept

/-! ## The processes -/

inductive Signal
  | int
  | quit
  | term
  deriving DecidableEq, Repr

def Signal.number : Signal → ℕ
  | .int => 2
  | .quit => 3
  | .term => 15

/-- Where `manage_slave_services` is. -/
inductive Main
  | starting
  | waiting
  | ending (status : ℕ)
  | sent
  deriving DecidableEq, Repr

/-- An activation of `myexit`: its signal and whether it has sent `CMD_EXIT`. -/
structure Frame where
  signal : Signal
  sent : Bool
  deriving DecidableEq, Repr

/-- A slave: whether it is running, whether the handler is installed, the main program, the
activations of the handler with the innermost first, `my_sigterm` and the status of the
child that `waitpid` has still to collect. -/
structure Slave where
  alive : Bool
  handler : Bool
  main : Main
  frames : List Frame
  mySigterm : Bool
  child : Option ℕ
  deriving DecidableEq, Repr

def Slave.hasSent (n : Slave) : Bool :=
  n.main = .sent ∨ n.frames.any Frame.sent

/-- The process is about to leave: the innermost activation of the handler, or the main
program if there is none, has sent `CMD_EXIT`. -/
def Slave.leaves (n : Slave) : Bool :=
  match n.frames with
  | [] => n.main = .sent
  | f :: _ => f.sent

structure Master where
  exitService : Bool
  exitStatus : ℕ
  exitCounter : ℤ
  left : Bool
  deriving DecidableEq, Repr

/-- The slaves, the messages `CMD_EXIT` and `CMD_KILL` under way, the nodes the master has
still to send `CMD_KILL` to, and the master. -/
structure State (V : Type*) where
  slave : V → Slave
  up : V → List ℕ
  down : V → ℕ
  out : List V
  master : Master

inductive Event (V : Type*)
  | started (v : V)
  | notStarted (v : V) (status : ℕ)
  | childReports (v : V) (status : ℕ)
  | waited (v : V)
  | killReceived (v : V)
  | exitSent (v : V)
  | signalled (v : V) (sig : Signal)
  | handlerSent (v : V)
  | exited (v : V)
  | masterSent
  | masterReceived (v : V)
  deriving DecidableEq

/-- The parameters of a run: the nodes, the services, the exit mode and `termmode`. -/
structure Config (V : Type*) where
  nodes : Nodes V
  services : Services
  mode : ℕ
  termmode : ℕ

variable {V : Type*} [DecidableEq V]

/-- The status sent for a child that ended: none is its fault if the slave has killed it. -/
def reported (termmode : ℕ) (mySigterm : Bool) (status : ℕ) : ℕ :=
  if mySigterm ∧ wifsignaled status ∧ wtermsig status = termmode then 0 else status

/-- `master_receiver` on `CMD_EXIT`. The first one makes the master kill all children if
the exit service is on. -/
def masterReceiver (mode : ℕ) (m : Master) (status : ℕ) : Master :=
  let exitStatus := if m.exitService then status else combine mode m.exitStatus status
  { exitService := false
    exitStatus := if mode = 4 then 0 else exitStatus
    exitCounter := m.exitCounter - 1
    left := m.exitCounter - 1 = 0 }

namespace State

def setSlave (s : State V) (v : V) (n : Slave) : State V :=
  { s with slave := Function.update s.slave v n }

def send (s : State V) (v : V) (status : ℕ) : State V :=
  { s with up := Function.update s.up v (s.up v ++ [status]) }

end State

/-- One step of a slave, of its child, of a signal or of the master. A slave that could not
start its child never installs the handler, and a signal then kills it. -/
def next (cfg : Config V) (s : State V) : Event V → Option (State V)
  | .started v =>
      let n := s.slave v
      if n.alive ∧ n.main = .starting ∧ cfg.services.slave ≠ .none then
        some (s.setSlave v { n with handler := true, main := .waiting })
      else none
  | .notStarted v status =>
      let n := s.slave v
      if n.alive ∧ n.main = .starting ∧ cfg.services.slave ≠ .none then
        some (s.setSlave v { n with main := .ending status })
      else none
  | .childReports v status =>
      let n := s.slave v
      if n.main ≠ .starting ∧ n.child = none then
        some (s.setSlave v { n with child := some status })
      else none
  | .waited v =>
      let n := s.slave v
      if n.alive ∧ n.main = .waiting ∧ n.frames = [] then
        n.child.map fun status ↦
          s.setSlave v { n with main := .ending (reported cfg.termmode n.mySigterm status) }
      else none
  | .killReceived v =>
      let n := s.slave v
      if n.alive ∧ n.main = .waiting ∧ cfg.services.slave.recvThread ∧ 0 < s.down v then
        some { s.setSlave v { n with
            mySigterm := n.mySigterm || cfg.services.slave.exit || cfg.services.slave.kill } with
          down := Function.update s.down v (s.down v - 1) }
      else none
  | .exitSent v =>
      let n := s.slave v
      match n.main with
      | .ending status =>
          if n.alive ∧ n.frames = [] then
            some ((s.send v status).setSlave v { n with main := .sent })
          else none
      | _ => none
  | .signalled v sig =>
      let n := s.slave v
      if n.alive ∧ ∀ f ∈ n.frames, f.signal ≠ sig then
        if n.handler then some (s.setSlave v { n with frames := ⟨sig, false⟩ :: n.frames })
        else some (s.setSlave v { n with alive := false })
      else none
  | .handlerSent v =>
      let n := s.slave v
      match n.frames with
      | ⟨sig, false⟩ :: rest =>
          if n.alive then
            some ((s.send v sig.number).setSlave v { n with frames := ⟨sig, true⟩ :: rest })
          else none
      | _ => none
  | .exited v =>
      let n := s.slave v
      if n.alive ∧ n.leaves then some (s.setSlave v { n with alive := false }) else none
  | .masterSent =>
      match s.out with
      | [] => none
      | v :: rest => some { s with out := rest, down := Function.update s.down v (s.down v + 1) }
  | .masterReceived v =>
      match s.out, s.up v with
      | [], status :: rest =>
          if s.master.left then none
          else some { s with
            up := Function.update s.up v rest
            out := if s.master.exitService then cfg.nodes.toList else []
            master := masterReceiver cfg.mode s.master status }
      | _, _ => none

def init (cfg : Config V) : State V where
  slave := fun _ ↦ ⟨true, false, .starting, [], false, none⟩
  up := fun _ ↦ []
  down := fun _ ↦ 0
  out := []
  master := ⟨cfg.services.exit, 0, cfg.nodes.nnodes, false⟩

def received (tr : List (State V × Event V)) (v : V) : ℕ :=
  tr.countP fun p ↦ p.2 = .masterReceived v

/-- A signal starts the handler only on a slave that has not sent `CMD_EXIT`. -/
def Unsent (s : State V) : Event V → Prop
  | .signalled v _ => (s.slave v).handler = true → (s.slave v).hasSent = false
  | _ => True

instance (s : State V) (e : Event V) : Decidable (Unsent s e) :=
  match e with
  | .signalled v _ =>
      inferInstanceAs (Decidable ((s.slave v).handler = true → (s.slave v).hasSent = false))
  | .started _ | .notStarted _ _ | .childReports _ _ | .waited _ | .killReceived _ | .exitSent _
  | .handlerSent _ | .exited _ | .masterSent | .masterReceived _ => .isTrue trivial

/-! ## One message from each slave -/

/-- An activation of the handler has interrupted nothing that had sent `CMD_EXIT`. -/
def Slave.Ordered (n : Slave) : Prop :=
  ∀ f rest, n.frames = f :: rest → n.main ≠ .sent ∧ ∀ g ∈ rest, g.sent = false

/-- Each slave has sent at most one message, which is under way or has been counted. -/
structure Inv (cfg : Config V) (tr : List (State V × Event V)) (s : State V) : Prop where
  ordered : ∀ v, (s.slave v).Ordered
  balance : ∀ v, received tr v + (s.up v).length = if (s.slave v).hasSent then 1 else 0
  counter : s.master.exitCounter =
    cfg.nodes.nnodes - cfg.nodes.toList.countP fun v ↦ decide (0 < received tr v)
  left : s.master.left = true → s.master.exitCounter = 0

section Invariant

variable {cfg : Config V} {tr : List (State V × Event V)} {s s' : State V} {v : V} {n : Slave}

theorem received_snoc (e : Event V) : received (tr ++ [(s, e)]) v =
    received tr v + if e = .masterReceived v then 1 else 0 := by
  simp [received, List.countP_append, List.countP_singleton]

theorem received_snoc_of_ne {e : Event V} (he : ∀ v, e ≠ .masterReceived v) :
    received (tr ++ [(s, e)]) v = received tr v := by
  simp [received_snoc, he v]

theorem inv_init : Inv cfg [] (init cfg) := by
  refine ⟨fun v f rest h ↦ ?_, fun v ↦ ?_, ?_, fun h ↦ ?_⟩
  · simp [init] at h
  · simp [init, received, Slave.hasSent]
  · simp [init, received]
  · simp [init] at h

theorem Inv.setSlave (hi : Inv cfg tr s) {e : Event V} (he : ∀ v, e ≠ .masterReceived v)
    (hordered : n.Ordered) (hsent : n.hasSent = (s.slave v).hasSent)
    (hslave : s'.slave = Function.update s.slave v n) (hup : s'.up = s.up)
    (hmaster : s'.master = s.master) : Inv cfg (tr ++ [(s, e)]) s' := by
  refine ⟨fun w ↦ ?_, fun w ↦ ?_, ?_, ?_⟩
  · rw [hslave]
    by_cases hw : w = v
    · subst hw
      simpa using hordered
    · simpa [hw] using hi.ordered w
  · rw [received_snoc_of_ne he, hup, hi.balance w, hslave]
    by_cases hw : w = v
    · subst hw
      simp [hsent]
    · simp [hw]
  · simpa only [hmaster, received_snoc_of_ne he] using hi.counter
  · rw [hmaster]
    exact hi.left

/-- A step that leaves the activations of the handler alone and is not the main program's
message. -/
theorem Inv.keepFrames (hi : Inv cfg tr s) {e : Event V} (he : ∀ v, e ≠ .masterReceived v)
    (hslave : s'.slave = Function.update s.slave v n) (hup : s'.up = s.up)
    (hmaster : s'.master = s.master) (hframes : n.frames = (s.slave v).frames)
    (hmain : n.main = .sent ↔ (s.slave v).main = .sent) : Inv cfg (tr ++ [(s, e)]) s' := by
  refine hi.setSlave he (fun f rest hf ↦ ?_) ?_ hslave hup hmaster
  · rw [hframes] at hf
    obtain ⟨hunsent, hrest⟩ := hi.ordered v f rest hf
    exact ⟨fun hsent ↦ hunsent (hmain.mp hsent), hrest⟩
  · simp [Slave.hasSent, hframes, hmain]

theorem Inv.send (hi : Inv cfg tr s) {e : Event V} (he : ∀ v, e ≠ .masterReceived v)
    (hordered : n.Ordered) (hunsent : (s.slave v).hasSent = false) (hsent : n.hasSent = true)
    (status : ℕ) : Inv cfg (tr ++ [(s, e)]) ((s.send v status).setSlave v n) := by
  refine ⟨fun w ↦ ?_, fun w ↦ ?_, ?_, hi.left⟩
  · by_cases hw : w = v
    · subst hw
      simpa [State.setSlave] using hordered
    · simpa [State.setSlave, State.send, hw] using hi.ordered w
  · have hbalance := hi.balance w
    rw [received_snoc_of_ne he]
    by_cases hw : w = v
    · subst hw
      simp only [hunsent, Bool.false_eq_true, if_false] at hbalance
      simp [State.setSlave, State.send, hsent]
      omega
    · simpa [State.setSlave, State.send, hw] using hbalance
  · simp only [received_snoc_of_ne he]
    exact hi.counter

theorem inv_exitSent (hi : Inv cfg tr s) (h : next cfg s (.exitSent v) = some s') :
    Inv cfg (tr ++ [(s, .exitSent v)]) s' := by
  simp only [next] at h
  split at h
  · next status hmain =>
      simp only [Option.ite_none_right_eq_some, Option.some.injEq] at h
      obtain ⟨⟨-, hframes⟩, rfl⟩ := h
      refine hi.send (by simp) (fun f rest hf ↦ ?_) ?_ ?_ status
      · simp [hframes] at hf
      · simp [Slave.hasSent, hmain, hframes]
      · simp [Slave.hasSent]
  · cases h

theorem inv_handlerSent (hi : Inv cfg tr s) (h : next cfg s (.handlerSent v) = some s') :
    Inv cfg (tr ++ [(s, .handlerSent v)]) s' := by
  simp only [next] at h
  split at h
  · next sig rest hframes =>
      simp only [Option.ite_none_right_eq_some, Option.some.injEq] at h
      obtain ⟨-, rfl⟩ := h
      -- what the handler interrupted had not sent
      obtain ⟨hmain, hrest⟩ := hi.ordered v _ _ hframes
      refine hi.send (by simp) (fun f rest' hf ↦ ?_) ?_ ?_ sig.number
      · obtain ⟨rfl, rfl⟩ := List.cons.inj hf
        exact ⟨hmain, hrest⟩
      · simpa [Slave.hasSent, hmain, hframes] using hrest
      · simp [Slave.hasSent]
  · cases h

theorem inv_signalled (hi : Inv cfg tr s) {sig : Signal}
    (hunsent : (s.slave v).handler = true → (s.slave v).hasSent = false)
    (h : next cfg s (.signalled v sig) = some s') :
    Inv cfg (tr ++ [(s, .signalled v sig)]) s' := by
  simp only [next, Option.ite_none_right_eq_some] at h
  obtain ⟨-, h⟩ := h
  split at h
  · next hhandler =>
    obtain ⟨hmain, hframes⟩ :
        (s.slave v).main ≠ .sent ∧ ∀ f ∈ (s.slave v).frames, f.sent = false := by
      simpa [Slave.hasSent] using hunsent hhandler
    cases h
    refine hi.setSlave (by simp) (fun f rest hf ↦ ?_) ?_ rfl rfl rfl
    · obtain ⟨rfl, rfl⟩ := List.cons.inj hf
      exact ⟨hmain, hframes⟩
    · simp [Slave.hasSent]
  · cases h
    exact hi.keepFrames (by simp) rfl rfl rfl rfl Iff.rfl

theorem inv_masterReceived (hi : Inv cfg tr s) (h : next cfg s (.masterReceived v) = some s') :
    Inv cfg (tr ++ [(s, .masterReceived v)]) s' := by
  simp only [next] at h
  split at h
  · next status rest hout hup =>
      simp only [Option.ite_none_left_eq_some, Option.some.injEq] at h
      obtain ⟨-, rfl⟩ := h
      have hbalance := hi.balance v
      rw [hup, List.length_cons] at hbalance
      have hzero : received tr v = 0 := by
        split at hbalance <;> omega
      have hreceived : ∀ w, received (tr ++ [(s, .masterReceived v)]) w =
          received tr w + if w = v then 1 else 0 := by
        intro w
        simp only [received_snoc, Event.masterReceived.injEq, eq_comm]
      have hcount : (cfg.nodes.toList.countP fun w ↦
          decide (0 < received (tr ++ [(s, .masterReceived v)]) w)) =
          (cfg.nodes.toList.countP fun w ↦ decide (0 < received tr w)) + 1 := by
        apply cfg.nodes.countP_succ (v := v)
        · simp [hzero]
        · simp [hreceived]
        · intro w hw
          simp [hreceived, hw]
      refine ⟨hi.ordered, fun w ↦ ?_, ?_, fun hleft ↦ ?_⟩
      · rw [hreceived]
        by_cases hw : w = v
        · subst hw
          rw [← hi.balance w, hup]
          simp
          omega
        · simpa [hw] using hi.balance w
      · rw [hcount]
        simp only [masterReceiver, hi.counter]
        omega
      · simpa [masterReceiver] using hleft
  · cases h

theorem Inv.step (hi : Inv cfg tr s) {e : Event V} (he : Unsent s e)
    (h : next cfg s e = some s') : Inv cfg (tr ++ [(s, e)]) s' := by
  cases e with
  | started v =>
      simp only [next, Option.ite_none_right_eq_some, Option.some.injEq] at h
      obtain ⟨⟨-, hmain, -⟩, rfl⟩ := h
      exact hi.keepFrames (by simp) rfl rfl rfl rfl (by simp [hmain])
  | notStarted v status =>
      simp only [next, Option.ite_none_right_eq_some, Option.some.injEq] at h
      obtain ⟨⟨-, hmain, -⟩, rfl⟩ := h
      exact hi.keepFrames (by simp) rfl rfl rfl rfl (by simp [hmain])
  | childReports v status =>
      simp only [next, Option.ite_none_right_eq_some, Option.some.injEq] at h
      obtain ⟨-, rfl⟩ := h
      exact hi.keepFrames (by simp) rfl rfl rfl rfl Iff.rfl
  | waited v =>
      simp only [next, Option.ite_none_right_eq_some, Option.map_eq_some_iff] at h
      obtain ⟨⟨-, hmain, -⟩, status, -, rfl⟩ := h
      exact hi.keepFrames (by simp) rfl rfl rfl rfl (by simp [hmain])
  | killReceived v =>
      simp only [next, Option.ite_none_right_eq_some, Option.some.injEq] at h
      obtain ⟨-, rfl⟩ := h
      exact hi.keepFrames (by simp) rfl rfl rfl rfl Iff.rfl
  | exitSent v => exact inv_exitSent hi h
  | signalled v sig => exact inv_signalled hi he h
  | handlerSent v => exact inv_handlerSent hi h
  | exited v =>
      simp only [next, Option.ite_none_right_eq_some, Option.some.injEq] at h
      obtain ⟨-, rfl⟩ := h
      exact hi.keepFrames (by simp) rfl rfl rfl rfl Iff.rfl
  | masterSent =>
      simp only [next] at h
      split at h
      · cases h
      · cases h
        refine ⟨hi.ordered, fun w ↦ ?_, ?_, hi.left⟩
        · rw [received_snoc_of_ne (by simp)]
          exact hi.balance w
        · simp only [received_snoc_of_ne (e := .masterSent) (by simp)]
          exact hi.counter
  | masterReceived v => exact inv_masterReceived hi h

theorem Inv.exec (h : Exec (next cfg) (init cfg) tr s) (hC : Meets Unsent tr) : Inv cfg tr s :=
  Exec.trace_invariant (I := fun tr s ↦ Inv cfg tr s) inv_init
    (fun _ _ _ _ hi he hnext ↦ hi.step he hnext) h hC

/-- In every run in which no signal starts the handler on a slave that has already sent
`CMD_EXIT`, the master leaves its loop only when it has heard from every node. -/
theorem left_after_all_received (h : Exec (next cfg) (init cfg) tr s) (hC : Meets Unsent tr)
    (hleft : s.master.left = true) (v : V) : 0 < received tr v := by
  have hi := Inv.exec h hC
  have hcounter := hi.counter
  rw [hi.left hleft] at hcounter
  have hall : (cfg.nodes.toList.countP fun v ↦ decide (0 < received tr v)) =
      cfg.nodes.toList.length := by
    simp only [Nodes.nnodes] at hcounter
    omega
  simpa using List.countP_eq_length.mp hall v (cfg.nodes.mem v)

end Invariant

def pairConfig : Config Bool :=
  ⟨.pair, .ofOptions [.exit], 0, 15⟩

/-- One child ends, the other node is told to stop by a signal. -/
theorem left_after_both_received : ∃ tr s, Exec (next pairConfig) (init pairConfig) tr s ∧
    Meets Unsent tr ∧ s.master.left = true ∧ ∀ v, 0 < received tr v := by
  obtain ⟨tr, s, hexec, hC, hleft⟩ : ∃ tr s, Exec (next pairConfig) (init pairConfig) tr s ∧
      Meets Unsent tr ∧ s.master.left = true :=
    Exec.exists_of_run [.started false, .started true, .childReports false 0, .waited false,
      .exitSent false, .exited false, .signalled true .term, .handlerSent true,
      .masterReceived false, .masterSent, .masterSent, .masterReceived true] (by decide +kernel)
  exact ⟨tr, s, hexec, hC, hleft, left_after_all_received hexec hC hleft⟩

/-- A signal after the slave's own message: the master counts one node twice and leaves
without having heard from the other, whose child is still running. -/
theorem twiceSent_left : ∃ tr s, Exec (next pairConfig) (init pairConfig) tr s ∧
    s.master.left = true ∧ received tr false = 2 ∧ received tr true = 0 ∧
    (s.slave true).main = .waiting := by
  obtain ⟨tr, s, hexec, -, h⟩ : ∃ tr s, Exec (next pairConfig) (init pairConfig) tr s ∧
      Meets (fun _ _ ↦ True) tr ∧ s.master.left = true ∧ received tr false = 2 ∧
      received tr true = 0 ∧ (s.slave true).main = .waiting :=
    Exec.exists_of_run [.started false, .started true, .childReports false 0, .waited false,
      .exitSent false, .signalled false .term, .handlerSent false, .exited false,
      .masterReceived false, .masterSent, .masterSent, .masterReceived false] (by decide +kernel)
  exact ⟨tr, s, hexec, h⟩

end AxiomApps.Run.Exit
