import AxiomApps.Run.Barrier
import AxiomApps.Run.Stdin

/-!
# Full barriers

The `recv_thread` that hands a release to the child also writes the child's input into its pipe,
and it handles the messages of the master in the order in which they come. So the barriers and
the input go on together here, over one link from the master to each slave, and a child that
waits in `axrun_sync` does not read its input. A barrier is full when every child has called;
whether it opens depends on the services, on the calls that fail and on the room in the pipes.
-/

namespace AxiomApps.Run.Barrier

open EventSystem

variable {V : Type*} [DecidableEq V]

/-! ## Where the barriers alone get stuck -/

/-- The step is one that a call, a slave or the master takes by itself: neither a child that
begins another call nor a signal from outside. -/
def Event.Own : Event V → Prop
  | .begun _ _ => False
  | .interrupted _ _ => False
  | _ => True

def Stuck (nodes : Nodes V) (sv : Services) (s : State V) : Prop :=
  ∀ e : Event V, e.Own → next nodes sv s e = none

section Full

variable {nodes : Nodes V} {sv : Services} {tr : List (State V × Event V)} {s : State V}

theorem Inv.sock_of_stuck (hi : Inv nodes sv tr s) (hstuck : Stuck nodes sv s) {v : V} {id : ℕ}
    (hwaiting : s.calls v id = .waiting) : (s.net.sock v id).getD [] = [] := by
  by_contra hne
  obtain ⟨d, q, hq⟩ := List.exists_cons_of_ne_nil hne
  have hd : d = .barrier := hi.datagrams v id d (by simp [hq])
  have hresult : s.syncResult? v id = some 0 := by
    simp [State.syncResult?, hq, hd, syncResult, syncHeader]
  simpa [next, hwaiting, hresult] using hstuck (.returned v id) trivial

/-- With `recv_thread` running, nobody stays in a barrier that all have reached. -/
theorem Inv.returned_of_stuck (hi : Inv nodes sv tr s) (hbarrier : sv.barrier = true)
    (hrecv : sv.recvThread = true) (hstuck : Stuck nodes sv s) {k id : ℕ}
    (hall : ∀ w, k ≤ begun tr w id) (v : V) : k ≤ returned tr v id := by
  have hquiet := Relay.quiet_of_stuck (P := program nodes sv) (s := s.net)
    (by simp [program, Services.slave_eq, Services.sockThread, hbarrier])
    (by simpa [program, Services.slave_eq, Services.recvThread] using hrecv)
    (fun e ↦ by simpa [next] using hstuck (.relay e) trivial)
  have hnotbound : ∀ w, s.calls w id ≠ .bound := by
    intro w hbound
    simpa [next, hbound, (hquiet w).1] using hstuck (.posted w id) trivial
  have htaken : ∀ w, taken tr w id = begun tr w id := by
    intro w
    have hrequests := hi.requests w id
    simpa [hnotbound w, (hquiet w).2.1] using hrequests.symm
  obtain ⟨r, hr⟩ := hi.rounds id
  have hreturned : returned tr v id = r := by
    have hreleased : released tr s v id = r := hr.released v
    have hsock : (s.net.sock v id).getD [] = [] := by
      cases hcall : s.calls v id with
      | idle => simp [(hi.bound v id).mpr hcall]
      | bound => exact absurd hcall (hnotbound v)
      | waiting => exact hi.sock_of_stuck hstuck hcall
    simpa [released, (hquiet v).2.2, hsock] using hreleased
  by_contra hlt
  -- all nodes have asked beyond the last release, so the master would have sent another
  have hasked : asked nodes tr id r = nodes.nnodes := by
    simp only [asked, Nodes.nnodes, List.countP_eq_length, decide_eq_true_eq]
    intro w _
    have hle := hr.taken_le hi w
    have hk := hall w
    rw [← htaken w] at hk
    omega
  exact absurd (hr.asked_lt hbarrier) (by omega)

end Full

/-! ## Two runs that get stuck -/

def single : Nodes Unit := ⟨[()], by decide, by decide⟩

/-- No call ends with -1 at this step, and `recv_thread` hands nothing on. -/
def Event.Withheld (e : Event V) : Prop :=
  e.Succeeds ∧ ∀ v, e ≠ .relay (.delivered v)

/-- The only child has called, and the release is on its way to it. -/
theorem exists_released {sv : Services} (hbarrier : sv.barrier = true) :
    ∃ tr s, Exec (next single sv) init tr s ∧ Meets (fun _ e ↦ e.Withheld) tr ∧
      begun tr () 0 = 1 ∧ s.calls () 0 = .waiting ∧
      ∀ e, e.Own → e ≠ .relay (.delivered ()) → next single sv s e = none := by
  obtain ⟨barrier, exit, redirect, rpc, allocator, kill⟩ := sv
  obtain rfl : barrier = true := hbarrier
  obtain ⟨tr, s, hrun, hbegun, hout, hup, hinbox, hsock, hwaiting, hidle⟩ :
      ∃ tr s, Exec.run (next single ⟨true, exit, redirect, rpc, allocator, kill⟩) init
        [.begun () 0, .relay (.opened ()), .posted () 0, .relay (.forwarded ()),
          .relay (.received ()), .relay .sent] = some (tr, s) ∧ begun tr () 0 = 1 ∧
        s.net.out = [] ∧ s.net.up () = [] ∧ s.net.inbox () = some [] ∧
        s.net.sock () 0 = some [] ∧ s.calls () 0 = .waiting ∧
        ∀ id, s.calls () (id + 1) = .idle := by
    cases exit <;> cases redirect <;> cases rpc <;> cases allocator <;> cases kill <;>
      exact ⟨_, _, rfl, rfl, rfl, rfl, rfl, rfl, rfl, fun _ ↦ rfl⟩
  have hC := Exec.meets_of_run hrun (P := Event.Withheld) (by simp [Event.Withheld, Event.Succeeds])
  refine ⟨tr, s, Exec.of_run hrun, hC, hbegun, hwaiting, fun e he hdelivered ↦ ?_⟩
  have hnotbound : ∀ id, s.calls () id ≠ .bound := by
    rintro (_ | id) <;> simp [hwaiting, hidle]
  have hresult : ∀ id, s.calls () id = .waiting → s.syncResult? () id = none := by
    rintro (_ | id) h
    · simp [State.syncResult?, hsock]
    · simp [hidle] at h
  cases e with
  | begun v id => exact he.elim
  | interrupted v id => exact he.elim
  | posted v id => simp [next, hnotbound]
  | refused v id => simp [next, hnotbound]
  | mismatched v id =>
      simp only [next]
      exact if_neg fun h ↦ by simp [hresult id h.1] at h
  | returned v id =>
      simp only [next]
      exact if_neg fun h ↦ by simp [hresult id h.1] at h
  | relay e =>
      cases e with
      | opened v => simp [next, Relay.next, hinbox]
      | forwarded v => simp [next, Relay.next, hinbox]
      | received v => simp [next, Relay.next, hout, hup]
      | sent => simp [next, Relay.next, hout]
      | delivered v => exact absurd rfl hdelivered

/-- One child calls before its slave's socket is bound and is refused; the other waits for a
request that will not come. -/
theorem exists_refused {sv : Services} (hbarrier : sv.barrier = true) :
    ∃ tr s, Exec (next pair sv) init tr s ∧ Meets (fun _ e ↦ ∀ v, e ≠ .relay (.delivered v)) tr ∧
      (∀ w, begun tr w 0 = 1) ∧ s.calls true 0 = .waiting ∧ Stuck pair sv s := by
  obtain ⟨barrier, exit, redirect, rpc, allocator, kill⟩ := sv
  obtain rfl : barrier = true := hbarrier
  obtain ⟨tr, s, hrun, hbegun, hout, hup, hdown, hinbox, hsock, hwaiting, hidle, hfalse⟩ :
      ∃ tr s, Exec.run (next pair ⟨true, exit, redirect, rpc, allocator, kill⟩) init
        [.begun false 0, .refused false 0, .relay (.opened false), .begun true 0,
          .relay (.opened true), .posted true 0, .relay (.forwarded true),
          .relay (.received true)] = some (tr, s) ∧ (∀ w, begun tr w 0 = 1) ∧
        s.net.out = [] ∧ (∀ v, s.net.up v = []) ∧ (∀ v, s.net.down v = []) ∧
        (∀ v, s.net.inbox v = some []) ∧ s.net.sock true 0 = some [] ∧
        s.calls true 0 = .waiting ∧ (∀ id, s.calls true (id + 1) = .idle) ∧
        ∀ id, s.calls false id = .idle := by
    cases exit <;> cases redirect <;> cases rpc <;> cases allocator <;> cases kill <;>
      exact ⟨_, _, rfl, by decide, rfl, by decide, by decide, by decide, rfl, rfl,
        fun _ ↦ rfl, fun id ↦ by cases id <;> rfl⟩
  have hC := Exec.meets_of_run hrun (P := fun e ↦ ∀ v, e ≠ .relay (.delivered v)) (by simp)
  refine ⟨tr, s, Exec.of_run hrun, hC, hbegun, hwaiting, fun e he ↦ ?_⟩
  have hnotbound : ∀ v id, s.calls v id ≠ .bound := by
    rintro (_ | _) (_ | id) <;> simp [hwaiting, hidle, hfalse]
  have hresult : ∀ v id, s.calls v id = .waiting → s.syncResult? v id = none := by
    rintro (_ | _) (_ | id) h
    · simp [hfalse] at h
    · simp [hfalse] at h
    · simp [State.syncResult?, hsock]
    · simp [hidle] at h
  cases e with
  | begun v id => exact he.elim
  | interrupted v id => exact he.elim
  | posted v id => simp [next, hnotbound]
  | refused v id => simp [next, hnotbound]
  | mismatched v id =>
      simp only [next]
      exact if_neg fun h ↦ by simp [hresult v id h.1] at h
  | returned v id =>
      simp only [next]
      exact if_neg fun h ↦ by simp [hresult v id h.1] at h
  | relay e =>
      cases e with
      | opened v => simp [next, Relay.next, hinbox]
      | forwarded v => simp [next, Relay.next, hinbox]
      | received v => simp [next, Relay.next, hout, hup]
      | sent => simp [next, Relay.next, hout]
      | delivered v => simp [next, Relay.next, hdown]

end AxiomApps.Run.Barrier

namespace AxiomApps.Run.FullBarrier

open EventSystem

/-! ## Barriers and input -/

/-- The link of a slave is in `input`, where an `other` stands for each release on its way. -/
structure State (V : Type*) where
  barrier : Barrier.State V
  input : Stdin.State V

inductive Event (V : Type*)
  | barrier (e : Barrier.Event V)
  | input (e : Stdin.Event V)
  deriving DecidableEq

variable {V : Type*} [DecidableEq V]

/-- What a step of the barriers does to the links. The master puts a release into one;
`recv_thread` takes it out when it has come to it and is not in `output`. -/
def link (cfg : Stdin.Config V) (s : State V) : Barrier.Event V → Option (Stdin.State V)
  | .relay .sent =>
      s.barrier.net.out.head?.bind fun p ↦ Stdin.next cfg s.input (.commandSent p.1 false)
  | .relay (.delivered v) =>
      if (s.input.slave v).link.head? = some .other then
        Stdin.next cfg s.input (.slave v .handled)
      else none
  | _ => some s.input

/-- The step of the input is one of the barriers too. -/
def shared (s : State V) : Stdin.Event V → Bool
  | .commandSent _ kill => !kill
  | .slave v .handled => (s.input.slave v).link.head? = some .other
  | _ => false

def next (cfg : Stdin.Config V) (s : State V) : Event V → Option (State V)
  | .barrier e =>
      (Barrier.next cfg.nodes cfg.services s.barrier e).bind fun b ↦
        (link cfg s e).map fun d ↦ ⟨b, d⟩
  | .input e =>
      if shared s e then none
      else (Stdin.next cfg s.input e).map fun d ↦ { s with input := d }

/-- `master_sender` is started for the redirect service, and `recv_thread` for some services. -/
def init (cfg : Stdin.Config V) : State V where
  barrier := Barrier.init
  input :=
    { sender := if cfg.services.redirect then .selecting else .ended
      read := []
      slave := fun _ ↦
        ⟨[], if cfg.services.slave.recvThread then .selecting else .ended, [], true, [], false⟩ }

/-- A step that neither a child nor a signal nor new input has to bring about. -/
def Event.Own : Event V → Prop
  | .barrier e => e.Own
  | .input (.sent _) | .input (.slave _ .handled) | .input (.slave _ (.wrote _))
  | .input (.slave _ .writeFailed) => True
  | .input _ => False

def Stuck (cfg : Stdin.Config V) (s : State V) : Prop :=
  ∀ e : Event V, e.Own → next cfg s e = none

/-- No call of `axrun_sync` returns -1, and no slave ends its `recv_thread`. -/
def Undisturbed (_ : State V) : Event V → Prop
  | .barrier e => e.Succeeds
  | .input (.slave _ .threadEnded) => False
  | .input _ => True

/-- The input that `recv_thread` takes from the link has room in the pipe of a child that has its
input open. -/
def Room (cfg : Stdin.Config V) (s : State V) : Event V → Prop
  | .input (.slave v .handled) =>
      ∀ raw rest, (s.input.slave v).link = .recvFromStdin raw :: rest →
        (s.input.slave v).opened = true →
        (s.input.slave v).pipe.length + raw.length ≤ cfg.pipeSize
  | _ => True

/-- The steps of the barriers. -/
def barrierTrace (tr : List (State V × Event V)) : List (Barrier.State V × Barrier.Event V) :=
  tr.filterMap fun p ↦
    match p.2 with
    | .barrier e => some (p.1.barrier, e)
    | .input _ => none

/-- In the runs whose steps meet the condition no child stays in a call that all have made: where
nothing goes on, a child that has called `axrun_sync(id)` no more often than any other is in no
such call. -/
def Opens (cfg : Stdin.Config V) (C : State V → Event V → Prop) : Prop :=
  ∀ tr s, Exec (next cfg) (init cfg) tr s → Meets C tr → Stuck cfg s → ∀ v id,
    (∀ w, Barrier.begun (barrierTrace tr) v id ≤ Barrier.begun (barrierTrace tr) w id) →
    s.barrier.calls v id = .idle

section Steps

variable {cfg : Stdin.Config V} {s s' : State V} {e : Event V} {tr : List (State V × Event V)}

theorem next_cases (h : next cfg s e = some s') :
    (∃ e' b d, e = .barrier e' ∧
      Barrier.next cfg.nodes cfg.services s.barrier e' = some b ∧ link cfg s e' = some d ∧
      s' = ⟨b, d⟩) ∨
    (∃ e' d, e = .input e' ∧ shared s e' = false ∧ Stdin.next cfg s.input e' = some d ∧
      s' = { s with input := d }) := by
  cases e with
  | barrier e' =>
      obtain ⟨b, hb, h⟩ := Option.bind_eq_some_iff.mp h
      obtain ⟨d, hd, rfl⟩ := Option.map_eq_some_iff.mp h
      exact .inl ⟨e', b, d, rfl, hb, hd, rfl⟩
  | input e' =>
      obtain ⟨hshared, h⟩ := Option.ite_none_left_eq_some.mp h
      obtain ⟨d, hd, rfl⟩ := Option.map_eq_some_iff.mp h
      exact .inr ⟨e', d, rfl, by simpa using hshared, hd, rfl⟩

theorem next_barrier {e' : Barrier.Event V} {b : Barrier.State V} {d : Stdin.State V}
    (hb : Barrier.next cfg.nodes cfg.services s.barrier e' = some b)
    (hd : link cfg s e' = some d) : next cfg s (.barrier e') = some ⟨b, d⟩ := by
  simp [next, hb, hd]

theorem next_input {e' : Stdin.Event V} {d : Stdin.State V} (hshared : shared s e' = false)
    (hd : Stdin.next cfg s.input e' = some d) :
    next cfg s (.input e') = some { s with input := d } := by
  simp [next, hshared, hd]

omit [DecidableEq V] in
theorem barrierTrace_append (tr tr' : List (State V × Event V)) :
    barrierTrace (tr ++ tr') = barrierTrace tr ++ barrierTrace tr' :=
  List.filterMap_append

/-- The barriers take part in a run of their own. -/
theorem exec_barrier {s₀ : State V} (h : Exec (next cfg) s₀ tr s) :
    Exec (Barrier.next cfg.nodes cfg.services) s₀.barrier (barrierTrace tr) s.barrier := by
  induction h with
  | nil => exact .nil
  | snoc _ hnext ih =>
      rw [barrierTrace_append]
      obtain ⟨e', b, d, rfl, hb, -, rfl⟩ | ⟨e', d, rfl, -, -, rfl⟩ := next_cases hnext
      · exact ih.snoc hb
      · simpa [barrierTrace] using ih

omit [DecidableEq V] in
theorem meets_barrierTrace {C : State V → Event V → Prop}
    {C' : Barrier.State V → Barrier.Event V → Prop}
    (hC : ∀ s e, C s (.barrier e) → C' s.barrier e) (h : Meets C tr) :
    Meets C' (barrierTrace tr) := by
  intro p hp
  obtain ⟨⟨s, e⟩, hmem, heq⟩ := List.mem_filterMap.mp hp
  cases e with
  | barrier e =>
      cases heq
      exact hC s e (h _ hmem)
  | input e => cases heq

end Steps

/-! ## What keeps `recv_thread` going -/

/-- `recv_thread` runs, and what it has still to write has room. -/
structure Flowing (cfg : Stdin.Config V) (n : Stdin.Slave) : Prop where
  running : n.thread ≠ .ended
  room : ∀ rest, n.thread = .writing rest →
    rest ≠ [] ∧ (n.opened = true → n.pipe.length + rest.length ≤ cfg.pipeSize)

/-- The releases in a link are those the barriers count. -/
structure Inv (cfg : Stdin.Config V) (s : State V) : Prop where
  releases : ∀ v, (s.input.slave v).link.countP (· = .other) = (s.barrier.net.down v).length
  flowing : ∀ v, Flowing cfg (s.input.slave v)

section Invariant

variable {cfg : Stdin.Config V} {s s' : State V} {e : Event V} {tr : List (State V × Event V)}

omit [DecidableEq V] in
theorem Flowing.output {n : Stdin.Slave} {rest : List UInt8} (hthread : n.thread = .output rest)
    (hroom : n.opened = true → n.pipe.length + rest.length ≤ cfg.pipeSize) : Flowing cfg n := by
  refine ⟨hthread ▸ Stdin.RecvThread.output_ne_ended rest, fun rest' hrest' ↦ ?_⟩
  rw [hthread, Stdin.RecvThread.output] at hrest'
  split_ifs at hrest' with hnil
  cases hrest'
  exact ⟨hnil, hroom⟩

omit [DecidableEq V] in
theorem Flowing.next {n n' : Stdin.Slave} {e : Stdin.SlaveEvent} (hn : Flowing cfg n)
    (hended : e ≠ .threadEnded)
    (hroom : e = .handled → ∀ raw rest, n.link = .recvFromStdin raw :: rest → n.opened = true →
      n.pipe.length + raw.length ≤ cfg.pipeSize)
    (h : n.next cfg e = some n') : Flowing cfg n' := by
  cases e with
  | handled =>
      simp only [Stdin.Slave.next] at h
      split at h
      · next m link hthread hlink =>
          cases h
          have hsame : ∀ killed, Flowing cfg { n with link := link, killed := killed } :=
            fun _ ↦ ⟨hn.running, hn.room⟩
          cases m with
          | recvFromStdin raw =>
              rw [Stdin.recvThread]
              split_ifs
              · exact .output rfl (hroom rfl raw link hlink)
              · exact hsame n.killed
          | kill =>
              rw [Stdin.recvThread]
              split_ifs
              · exact hsame true
              · exact hsame n.killed
          | other => exact hsame n.killed
      · cases h
  | wrote size =>
      simp only [Stdin.Slave.next] at h
      split at h
      · next rest hthread =>
          simp only [Option.ite_none_right_eq_some, Option.some.injEq] at h
          obtain ⟨⟨hopened, -, hle, -⟩, rfl⟩ := h
          refine .output rfl fun _ ↦ ?_
          have hfits := (hn.room rest hthread).2 hopened
          simp only [List.length_append, List.length_take, List.length_drop]
          omega
      · cases h
  | writeFailed =>
      simp only [Stdin.Slave.next] at h
      split at h
      · simp only [Option.ite_none_left_eq_some, Option.some.injEq] at h
        obtain ⟨-, rfl⟩ := h
        exact ⟨by simp, by simp⟩
      · cases h
  | threadEnded => exact absurd rfl hended
  | childRead size =>
      simp only [Stdin.Slave.next, Option.ite_none_right_eq_some, Option.some.injEq] at h
      obtain ⟨-, rfl⟩ := h
      refine ⟨hn.running, fun rest hrest ↦ ⟨(hn.room rest hrest).1, fun hopened ↦ ?_⟩⟩
      have hfits := (hn.room rest hrest).2 hopened
      simp only [List.length_drop]
      omega
  | childClosed =>
      simp only [Stdin.Slave.next, Option.ite_none_right_eq_some, Option.some.injEq] at h
      obtain ⟨-, rfl⟩ := h
      exact ⟨hn.running, fun rest hrest ↦ ⟨(hn.room rest hrest).1, by simp⟩⟩

omit [DecidableEq V] in
/-- Only `recv_thread` takes messages from the link, one at a time. -/
theorem slave_link {n n' : Stdin.Slave} {e : Stdin.SlaveEvent} (h : n.next cfg e = some n') :
    (e = .handled ∧ ∃ m, n.link = m :: n'.link) ∨ (e ≠ .handled ∧ n'.link = n.link) := by
  cases e with
  | handled =>
      simp only [Stdin.Slave.next] at h
      split at h
      · next m link hthread hlink =>
          cases h
          refine .inl ⟨rfl, m, hlink.trans ?_⟩
          cases m <;> simp only [Stdin.recvThread] <;> split_ifs <;> rfl
      · cases h
  | wrote size | writeFailed => grind [Stdin.Slave.next]
  | threadEnded | childRead size | childClosed => grind [Stdin.Slave.next]

theorem Inv.deliver {b : Barrier.State V} {d : Stdin.State V} {v : V} {m : Stdin.Msg}
    (sd : Stdin.Sender V) (hflowing : ∀ w, Flowing cfg (d.slave w))
    (hv : (d.slave v).link.countP (· = .other) + (if m = .other then 1 else 0) =
      (b.net.down v).length)
    (hw : ∀ w, w ≠ v → (d.slave w).link.countP (· = .other) = (b.net.down w).length) :
    Inv cfg ⟨b, { d with sender := sd }.deliver v m⟩ := by
  refine ⟨fun w ↦ ?_, fun w ↦ ?_⟩
  · by_cases hwv : w = v
    · subst hwv
      simpa [Stdin.State.deliver, List.countP_append, List.countP_singleton] using hv
    · simpa [Stdin.State.deliver, hwv] using hw w hwv
  · by_cases hwv : w = v
    · subst hwv
      simpa [Stdin.State.deliver] using ⟨(hflowing w).running, (hflowing w).room⟩
    · simpa [Stdin.State.deliver, hwv] using hflowing w

theorem Inv.slave {b : Barrier.State V} {d : Stdin.State V} {v : V} {n : Stdin.Slave}
    (hflowing : ∀ w, Flowing cfg (d.slave w)) (hn : Flowing cfg n)
    (hv : n.link.countP (· = .other) = (b.net.down v).length)
    (hw : ∀ w, w ≠ v → (d.slave w).link.countP (· = .other) = (b.net.down w).length) :
    Inv cfg ⟨b, { d with slave := Function.update d.slave v n }⟩ := by
  refine ⟨fun w ↦ ?_, fun w ↦ ?_⟩
  · by_cases hwv : w = v
    · subst hwv
      simpa using hv
    · simpa [hwv] using hw w hwv
  · by_cases hwv : w = v
    · subst hwv
      simpa using hn
    · simpa [hwv] using hflowing w

/-- A step of the barriers that the link does not see. -/
theorem down_eq {nodes : Nodes V} {sv : Services} {b b' : Barrier.State V} {e : Barrier.Event V}
    (hsent : e ≠ .relay .sent) (hdelivered : ∀ v, e ≠ .relay (.delivered v))
    (h : Barrier.next nodes sv b e = some b') : b'.net.down = b.net.down := by
  cases e with
  | begun v id | posted v id | refused v id | interrupted v id | mismatched v id
  | returned v id =>
      simp only [Barrier.next, Option.ite_none_right_eq_some, Option.some.injEq] at h
      obtain ⟨-, rfl⟩ := h
      rfl
  | relay e =>
      obtain ⟨net, hnet, rfl⟩ := Option.map_eq_some_iff.mp h
      cases e with
      | opened v =>
          simp only [Relay.next, Option.ite_none_right_eq_some, Option.some.injEq] at hnet
          obtain ⟨-, rfl⟩ := hnet
          rfl
      | forwarded v | received v =>
          simp only [Relay.next] at hnet
          split at hnet
          · cases hnet
            rfl
          · cases hnet
      | sent => exact absurd rfl hsent
      | delivered v => exact absurd rfl (hdelivered v)

theorem Inv.barrier (hi : Inv cfg s) {e : Barrier.Event V} {b : Barrier.State V}
    {d : Stdin.State V} (hb : Barrier.next cfg.nodes cfg.services s.barrier e = some b)
    (hd : link cfg s e = some d) : Inv cfg ⟨b, d⟩ := by
  by_cases hsent : e = .relay .sent
  · subst hsent
    obtain ⟨⟨v, m⟩, hhead, hd⟩ := Option.bind_eq_some_iff.mp hd
    obtain ⟨out, hout⟩ := List.head?_eq_some_iff.mp hhead
    cases hd
    obtain ⟨net, hnet, rfl⟩ := Option.map_eq_some_iff.mp hb
    simp only [Relay.next, hout, Option.some.injEq] at hnet
    subst hnet
    refine Inv.deliver _ hi.flowing ?_ fun w hw ↦ ?_
    · simp [hi.releases v]
    · simpa [hw] using hi.releases w
  by_cases hdelivered : ∃ v, e = .relay (.delivered v)
  · obtain ⟨v, rfl⟩ := hdelivered
    simp only [link, Option.ite_none_right_eq_some] at hd
    obtain ⟨hhead, hd⟩ := hd
    obtain ⟨n, hn, rfl⟩ := Option.map_eq_some_iff.mp hd
    have hcount := hi.releases v
    obtain ⟨-, m, hlink⟩ | ⟨hne, -⟩ := slave_link hn
    swap
    · exact absurd rfl hne
    obtain rfl : m = .other := by simpa [hlink] using hhead
    obtain ⟨net, hnet, rfl⟩ := Option.map_eq_some_iff.mp hb
    simp only [Relay.next, Option.ite_none_right_eq_some] at hnet
    obtain ⟨-, hnet⟩ := hnet
    split at hnet
    · next m q hdown =>
        have hdown' : net.down = Function.update s.barrier.net.down v q := by
          cases hnet
          split <;> rfl
        have hflow : Flowing cfg n := (hi.flowing v).next (e := .handled) (by simp)
          (fun _ raw rest hraw ↦ by simp [hlink] at hraw) hn
        refine Inv.slave hi.flowing hflow ?_ fun w hw ↦ ?_
        · simpa [hlink, hdown, hdown'] using hcount
        · simpa [hdown', hw] using hi.releases w
    · cases hnet
  · have hsame : d = s.input := by
      cases e with
      | relay e =>
          cases e with
          | sent => exact absurd rfl hsent
          | delivered v => exact absurd ⟨v, rfl⟩ hdelivered
          | _ => exact (Option.some.inj hd).symm
      | _ => exact (Option.some.inj hd).symm
    subst hsame
    have hdown := down_eq hsent (fun v hv ↦ hdelivered ⟨v, hv⟩) hb
    exact ⟨fun v ↦ by rw [hdown]; exact hi.releases v, hi.flowing⟩

theorem Inv.input (hi : Inv cfg s) {e : Stdin.Event V} {d : Stdin.State V}
    (hC : Undisturbed s (.input e)) (hroom : Room cfg s (.input e)) (hshared : shared s e = false)
    (h : Stdin.next cfg s.input e = some d) : Inv cfg { s with input := d } := by
  cases e with
  | read raw | senderEnded =>
      simp only [Stdin.next, Option.ite_none_right_eq_some, Option.some.injEq] at h
      obtain ⟨-, rfl⟩ := h
      exact ⟨hi.releases, hi.flowing⟩
  | sent ok =>
      simp only [Stdin.next] at h
      split at h
      · next raw v todo hsender =>
          cases h
          cases ok with
          | true => exact Inv.deliver _ hi.flowing (hi.releases v) fun w _ ↦ hi.releases w
          | false => exact ⟨hi.releases, hi.flowing⟩
      · cases h
  | commandSent v kill =>
      obtain rfl : kill = true := by simpa [shared] using hshared
      cases h
      exact Inv.deliver s.input.sender hi.flowing (hi.releases v) fun w _ ↦ hi.releases w
  | slave v e =>
      obtain ⟨n, hn, rfl⟩ := Option.map_eq_some_iff.mp h
      have hflow : Flowing cfg n := by
        refine (hi.flowing v).next (fun hended ↦ ?_) (fun hhandled ↦ ?_) hn
        · subst hended
          exact hC
        · subst hhandled
          exact hroom
      refine Inv.slave hi.flowing hflow ?_ fun w _ ↦ hi.releases w
      have hcount := hi.releases v
      obtain ⟨rfl, m, hlink⟩ | ⟨-, hlink⟩ := slave_link hn
      · have hm : m ≠ .other := by simpa [shared, hlink] using hshared
        simpa [hlink, hm] using hcount
      · rwa [hlink]

theorem inv_exec (hrecv : cfg.services.slave.recvThread = true)
    (h : Exec (next cfg) (init cfg) tr s)
    (hC : Meets (fun s e ↦ Undisturbed s e ∧ Room cfg s e) tr) : Inv cfg s := by
  refine h.invariant ⟨fun _ ↦ rfl, fun v ↦ ?_⟩ (fun s e s' hi he hnext ↦ ?_) hC
  · simp only [init, hrecv, if_true]
    exact ⟨nofun, nofun⟩
  · obtain ⟨e', b, d, rfl, hb, hd, rfl⟩ | ⟨e', d, rfl, hshared, hd, rfl⟩ := next_cases hnext
    · exact hi.barrier hb hd
    · exact hi.input he.1 he.2 hshared hd

/-- Where barriers and input are stuck together, the barriers are stuck. -/
theorem Inv.stuck_barrier (hi : Inv cfg s) (hstuck : Stuck cfg s) :
    Barrier.Stuck cfg.nodes cfg.services s.barrier := by
  intro e he
  by_contra hsome
  obtain ⟨b, hb⟩ := Option.ne_none_iff_exists'.mp hsome
  have hlink : link cfg s e = none := by
    by_contra hd
    obtain ⟨d, hd⟩ := Option.ne_none_iff_exists'.mp hd
    simpa [next_barrier hb hd] using hstuck (.barrier e) he
  cases e with
  | relay e =>
      cases e with
      | sent =>
          obtain ⟨net, hnet, -⟩ := Option.map_eq_some_iff.mp hb
          simp only [Relay.next] at hnet
          split at hnet
          · next v m out hout => simp [link, hout, Stdin.next] at hlink
          · cases hnet
      | delivered v =>
          obtain ⟨net, hnet, -⟩ := Option.map_eq_some_iff.mp hb
          simp only [Relay.next, Option.ite_none_right_eq_some] at hnet
          have hdown : s.barrier.net.down v ≠ [] := by
            intro hnil
            simp [hnil] at hnet
          -- a release is in the link, so its first message can be handled or waits for a write
          have hne : (s.input.slave v).link ≠ [] := by
            intro hnil
            have hcount := hi.releases v
            simp only [hnil, List.countP_nil] at hcount
            exact hdown (List.length_eq_zero_iff.mp hcount.symm)
          obtain ⟨m, rest, hcons⟩ := List.exists_cons_of_ne_nil hne
          have hslave : ∀ e', (Event.input (.slave v e')).Own →
              shared s (.slave v e') = false → (s.input.slave v).next cfg e' = none := by
            intro e' hown hshared
            have hnone := hstuck _ hown
            simpa [next, hshared, Stdin.next] using hnone
          cases hthread : (s.input.slave v).thread with
          | ended => exact (hi.flowing v).running hthread
          | selecting =>
              have hhandled : ((s.input.slave v).next cfg .handled).isSome = true := by
                simp [Stdin.Slave.next, hthread, hcons]
              by_cases hm : m = .other
              · simp only [link, hcons, hm, List.head?_cons, if_true, Stdin.next,
                  Option.map_eq_none_iff] at hlink
                simp [hlink] at hhandled
              · have hnone := hslave .handled trivial (by simp [shared, hcons, hm])
                simp [hnone] at hhandled
          | writing rest =>
              obtain ⟨hrest, hroom⟩ := (hi.flowing v).room rest hthread
              cases hopened : (s.input.slave v).opened with
              | true =>
                  have hnone := hslave (.wrote rest.length) trivial rfl
                  simp [Stdin.Slave.next, hthread, hopened, List.length_pos_iff, hrest,
                    hroom hopened] at hnone
              | false =>
                  have hnone := hslave .writeFailed trivial rfl
                  simp [Stdin.Slave.next, hthread, hopened] at hnone
      | _ => cases hlink
  | _ => cases hlink

/-- With `recv_thread` running and room for the input, full barriers open. -/
theorem opens_of_room (hbarrier : cfg.services.barrier = true)
    (hrecv : cfg.services.recvThread = true) :
    Opens cfg fun s e ↦ Undisturbed s e ∧ Room cfg s e := by
  intro tr s hexec hC hstuck v id hall
  have : Nonempty V := ⟨v⟩
  have hi := inv_exec (by simpa [Services.slave_eq, Services.recvThread] using hrecv) hexec hC
  have hb : Barrier.Inv cfg.nodes cfg.services (barrierTrace tr) s.barrier :=
    .exec (exec_barrier hexec) (meets_barrierTrace (fun _ _ he ↦ he.1) hC)
  have hreturned := hb.returned_of_stuck hbarrier hrecv (hi.stuck_barrier hstuck) hall v
  have hcalls := hb.calls v id
  by_contra hidle
  rw [if_neg hidle] at hcalls
  omega

/-- What a step of the input puts into a link. -/
theorem mem_link {d d' : Stdin.State V} {e : Stdin.Event V} {v : V} {m : Stdin.Msg}
    (h : Stdin.next cfg d e = some d') (hm : m ∈ (d'.slave v).link) :
    m ∈ (d.slave v).link ∨ (∃ raw todo, d.sender = .sending raw todo ∧ m = .recvFromStdin raw) ∨
      ∃ w kill, e = .commandSent w kill ∧ m = if kill then .kill else .other := by
  have hdeliver : ∀ sd {w m'}, m ∈ (({ d with sender := sd }.deliver w m').slave v).link →
      m ∈ (d.slave v).link ∨ m = m' := by
    intro sd w m' hmem
    by_cases hv : v = w
    · subst hv
      simpa [Stdin.State.deliver] using hmem
    · exact .inl (by simpa [Stdin.State.deliver, hv] using hmem)
  cases e with
  | read raw | senderEnded =>
      simp only [Stdin.next, Option.ite_none_right_eq_some, Option.some.injEq] at h
      obtain ⟨-, rfl⟩ := h
      exact .inl hm
  | sent ok =>
      simp only [Stdin.next] at h
      split at h
      · next raw w todo hsender =>
          cases h
          cases ok with
          | true => exact (hdeliver _ hm).imp_right fun heq ↦ .inl ⟨raw, _, hsender, heq⟩
          | false => exact .inl hm
      · cases h
  | commandSent w kill =>
      cases h
      exact (hdeliver d.sender hm).imp_right fun heq ↦ .inr ⟨w, kill, rfl, heq⟩
  | slave w e =>
      obtain ⟨n, hn, rfl⟩ := Option.map_eq_some_iff.mp h
      left
      by_cases hv : v = w
      · subst hv
        simp only [Function.update_self] at hm
        obtain ⟨-, m', hlink⟩ | ⟨-, hlink⟩ := slave_link hn
        · exact hlink ▸ List.mem_cons_of_mem _ hm
        · exact hlink ▸ hm
      · simpa [hv] using hm

theorem input_cases (h : next cfg s e = some s') :
    s'.input = s.input ∨ ∃ e', Stdin.next cfg s.input e' = some s'.input := by
  obtain ⟨e', b, d, -, -, hd, rfl⟩ | ⟨e', d, -, -, hd, rfl⟩ := next_cases h
  · unfold link at hd
    split at hd
    · obtain ⟨p, -, hd⟩ := Option.bind_eq_some_iff.mp hd
      exact .inr ⟨_, hd⟩
    · exact .inr ⟨_, (Option.ite_none_right_eq_some.mp hd).2⟩
    · exact .inl (Option.some.inj hd).symm
  · exact .inr ⟨e', hd⟩

/-- Without the redirect service there is no input. -/
theorem room_of_not_redirect (hredirect : cfg.services.redirect = false)
    (h : Exec (next cfg) (init cfg) tr s) : Meets (Room cfg) tr := by
  suffices hall : (s.input.sender = .ended ∧ ∀ v raw, .recvFromStdin raw ∉ (s.input.slave v).link) ∧
      Meets (Room cfg) tr from hall.2
  refine h.trace_invariant (C := fun _ _ ↦ True) (I := fun tr s ↦ (s.input.sender = .ended ∧
    ∀ v raw, .recvFromStdin raw ∉ (s.input.slave v).link) ∧ Meets (Room cfg) tr)
    ⟨by simp [init, hredirect], meets_nil⟩ (fun tr s e s' hI _ hnext ↦ ?_) fun _ _ ↦ trivial
  obtain ⟨⟨hsender, hnone⟩, hroom⟩ := hI
  refine ⟨?_, meets_append.mpr ⟨hroom, meets_singleton.mpr ?_⟩⟩
  · rcases input_cases hnext with hsame | ⟨e', hd⟩
    · rw [hsame]
      exact ⟨hsender, hnone⟩
    · refine ⟨?_, fun v raw hmem ↦ ?_⟩
      · cases e' with
        | read raw | sent ok | senderEnded => simp [Stdin.next, hsender] at hd
        | commandSent v kill =>
            rw [← Option.some.inj hd]
            exact hsender
        | slave v e' =>
            obtain ⟨n, -, hn⟩ := Option.map_eq_some_iff.mp hd
            rw [← hn]
            exact hsender
      · obtain hmem | ⟨raw', todo, hsending, -⟩ | ⟨w, kill, -, heq⟩ := mem_link hd hmem
        · exact hnone v raw hmem
        · simp [hsender] at hsending
        · cases kill <;> cases heq
  · unfold Room
    split
    · next v _ =>
        intro raw rest hlink
        exact absurd (hlink ▸ List.mem_cons_self) (hnone v raw)
    · trivial

end Invariant

/-! ## Runs that get stuck -/

section Lift

variable {cfg : Stdin.Config V} {b b' : Barrier.State V} {d d' : Stdin.State V}

/-- The steps of the input alone. -/
theorem exec_input {tr : List (Stdin.State V × Stdin.Event V)} (b : Barrier.State V)
    (h : Exec (Stdin.next cfg) Stdin.init tr d) (hC : Meets Stdin.InputOnly tr) :
    ∃ tr', Exec (next cfg) ⟨b, Stdin.init⟩ tr' ⟨b, d⟩ ∧ Meets Undisturbed tr' ∧
      barrierTrace tr' = [] := by
  have hreaches : (∀ v, .other ∉ (d.slave v).link) ∧
      Reaches (next cfg) (fun s e ↦ Undisturbed s e ∧ ∃ e', e = .input e') ⟨b, Stdin.init⟩
        ⟨b, d⟩ := by
    refine h.reaches_map (I := fun d ↦ ∀ v, .other ∉ (d.slave v).link) (State.mk b)
      (by simp [Stdin.init]) (fun d e d' hnone he hnext ↦ ⟨fun v hmem ↦ ?_, .inr ?_⟩) hC
    · obtain hmem | ⟨raw, todo, -, heq⟩ | ⟨w, kill, rfl, -⟩ := mem_link hnext hmem
      · exact hnone v hmem
      · cases heq
      · exact he
    · refine ⟨.input e, ⟨?_, e, rfl⟩, next_input (s := ⟨b, d⟩) ?_ hnext⟩
      · unfold Undisturbed
        split
        · next heq => cases heq
        · next heq =>
            cases heq
            exact he
        · trivial
      · unfold shared
        split
        · exact he.elim
        · next v =>
            rw [decide_eq_false_iff_not]
            exact fun hhead ↦ hnone v (List.mem_of_mem_head? hhead)
        · rfl
  obtain ⟨-, tr', hexec, htr'⟩ := hreaches
  refine ⟨tr', hexec, htr'.mono fun _ _ he ↦ he.1, ?_⟩
  rw [barrierTrace, List.filterMap_eq_nil_iff]
  rintro ⟨s, e⟩ hp
  obtain ⟨-, e', rfl⟩ := htr' _ hp
  rfl

/-- The steps of the barriers up to the delivery of a release, which stays in the link. -/
theorem exec_lift (cfg : Stdin.Config V) {tr : List (Barrier.State V × Barrier.Event V)}
    (h : Exec (Barrier.next cfg.nodes cfg.services) b tr b')
    (hC : Meets (fun _ e ↦ ∀ v, e ≠ .relay (.delivered v)) tr) (d : Stdin.State V) :
    ∃ tr' d', Exec (next cfg) ⟨b, d⟩ tr' ⟨b', d'⟩ ∧ barrierTrace tr' = tr ∧
      (∀ p ∈ tr', ∃ e, p.2 = .barrier e) ∧ d'.sender = d.sender ∧
      ∀ v, ∃ k, d'.slave v =
        { d.slave v with link := (d.slave v).link ++ List.replicate k .other } := by
  induction h with
  | nil => exact ⟨[], d, .nil, rfl, by simp, rfl, fun v ↦ ⟨0, by simp⟩⟩
  | @snoc tr b₁ b₂ e hexec hnext ih =>
      obtain ⟨htr, he⟩ := meets_append.mp hC
      obtain ⟨tr', d₁, hexec', htrace, hbarrier, hsender, hslave⟩ := ih htr
      have hlink : ∃ d₂, link cfg ⟨b₁, d₁⟩ e = some d₂ ∧ d₂.sender = d.sender ∧
          ∀ v, ∃ k, d₂.slave v =
            { d.slave v with link := (d.slave v).link ++ List.replicate k .other } := by
        by_cases hsent : e = .relay .sent
        · subst hsent
          obtain ⟨net, hnet, -⟩ := Option.map_eq_some_iff.mp hnext
          simp only [Relay.next] at hnet
          split at hnet
          · next v m out hout =>
              refine ⟨d₁.deliver v .other, by simp [link, hout, Stdin.next], hsender, fun w ↦ ?_⟩
              obtain ⟨k, hk⟩ := hslave w
              by_cases hw : w = v
              · subst hw
                refine ⟨k + 1, ?_⟩
                simp [Stdin.State.deliver, hk, List.replicate_succ']
              · exact ⟨k, by simpa [Stdin.State.deliver, hw] using hk⟩
          · cases hnet
        · refine ⟨d₁, ?_, hsender, hslave⟩
          unfold link
          split
          · exact absurd rfl hsent
          · next v => exact absurd rfl (meets_singleton.mp he v)
          · rfl
      obtain ⟨d₂, hd₂, hsender₂, hslave₂⟩ := hlink
      refine ⟨tr' ++ [(⟨b₁, d₁⟩, .barrier e)], d₂, hexec'.snoc (next_barrier hnext hd₂), ?_, ?_,
        hsender₂, hslave₂⟩
      · rw [barrierTrace_append, htrace]
        rfl
      · intro p hp
        rcases List.mem_append.mp hp with hp | hp
        · exact hbarrier p hp
        · exact ⟨e, by rw [List.mem_singleton.mp hp]⟩

/-- `recv_thread` writes nothing, and only releases are in its link. -/
def Idle (n : Stdin.Slave) : Prop :=
  (∀ rest, n.thread ≠ .writing rest) ∧ ∀ m ∈ n.link, m = .other

/-- Nothing goes on when the barriers are stuck, or wait for a `recv_thread` that is in `output`
before a full pipe, and there is no input for another. -/
theorem stuck_of_barrier {s : State V} (hsender : ∀ raw todo, s.input.sender ≠ .sending raw todo)
    (hslave : ∀ v, (s.input.slave v).Stuck cfg ∨ Idle (s.input.slave v))
    (hb : ∀ e, e.Own → Barrier.next cfg.nodes cfg.services s.barrier e = none ∨
      ∃ v, e = .relay (.delivered v) ∧ (s.input.slave v).Stuck cfg) : Stuck cfg s := by
  intro e he
  by_contra hsome
  obtain ⟨s', hnext⟩ := Option.ne_none_iff_exists'.mp hsome
  obtain ⟨e', b, d, rfl, hbarrier, hd, rfl⟩ | ⟨e', d, rfl, hshared, hd, rfl⟩ := next_cases hnext
  · rcases hb e' he with hnone | ⟨v, rfl, hst⟩
    · simp [hnone] at hbarrier
    · obtain ⟨-, hd⟩ := Option.ite_none_right_eq_some.mp hd
      obtain ⟨n, hn, -⟩ := Option.map_eq_some_iff.mp hd
      rcases hst.of_next hn with ⟨size, heq⟩ | heq <;> cases heq
  · cases e' with
    | read raw | senderEnded | commandSent v kill => exact he
    | sent ok =>
        simp only [Stdin.next] at hd
        split at hd
        · next raw v todo hsending => exact hsender raw _ hsending
        · cases hd
    | slave v e' =>
        obtain ⟨n, hn, -⟩ := Option.map_eq_some_iff.mp hd
        rcases hslave v with hst | ⟨hwriting, hothers⟩
        · rcases hst.of_next hn with ⟨size, rfl⟩ | rfl <;> exact he
        · cases e' with
          | handled =>
              obtain ⟨-, m, hlink⟩ | ⟨hne, -⟩ := slave_link hn
              · simp [shared, hlink, hothers m (by simp [hlink])] at hshared
              · exact hne rfl
          | wrote size | writeFailed => exact absurd hn (by simp [Stdin.Slave.next])
          | threadEnded | childRead size | childClosed => exact he

end Lift

section Blocked

variable {sv : Services} {rawSize pipeSize : ℕ} (hraw : 0 < rawSize) (hpipe : 0 < pipeSize)

/-- What a run of the barriers from the start becomes when no input is sent. -/
theorem exec_init {nodes : Nodes V} {b : Barrier.State V}
    {tr : List (Barrier.State V × Barrier.Event V)}
    (h : Exec (Barrier.next nodes sv) Barrier.init tr b)
    (hC : Meets (fun _ e ↦ ∀ v, e ≠ .relay (.delivered v)) tr) :
    ∃ tr' s, Exec (next ⟨nodes, sv, rawSize, pipeSize, hraw, hpipe⟩)
        (init ⟨nodes, sv, rawSize, pipeSize, hraw, hpipe⟩) tr' s ∧
      barrierTrace tr' = tr ∧ s.barrier = b ∧ (∀ p ∈ tr', ∃ e, p.2 = .barrier e) ∧
      (∀ raw todo, s.input.sender ≠ .sending raw todo) ∧ ∀ v, Idle (s.input.slave v) := by
  obtain ⟨tr', d, hexec, htrace, hbarrier, hsender, hslave⟩ :=
    exec_lift ⟨nodes, sv, rawSize, pipeSize, hraw, hpipe⟩ h hC
      (init ⟨nodes, sv, rawSize, pipeSize, hraw, hpipe⟩).input
  refine ⟨tr', ⟨b, d⟩, hexec, htrace, rfl, hbarrier, ?_, fun v ↦ ?_⟩
  · simp only [hsender, init]
    split <;> exact nofun
  · obtain ⟨k, hk⟩ := hslave v
    simp only [hk, init, List.nil_append]
    refine ⟨?_, fun m hm ↦ List.eq_of_mem_replicate hm⟩
    split <;> exact nofun

omit [DecidableEq V] in
theorem undisturbed_of_withheld {tr : List (State V × Event V)}
    (hbarrier : ∀ p ∈ tr, ∃ e, p.2 = .barrier e)
    (hC : Meets (fun _ e ↦ e.Withheld) (barrierTrace tr)) (cfg : Stdin.Config V) :
    Meets (fun s e ↦ Undisturbed s e ∧ Room cfg s e) tr := by
  rintro ⟨s, e⟩ hp
  obtain ⟨e', rfl⟩ : ∃ e', e = .barrier e' := hbarrier _ hp
  have hmem : (s.barrier, e') ∈ barrierTrace tr := List.mem_filterMap.mpr ⟨_, hp, rfl⟩
  exact ⟨(hC _ hmem).1, trivial⟩

/-- Without `recv_thread` the release stays where the master sent it. -/
theorem exists_unreceived (hbarrier : sv.barrier = true) (hrecv : sv.recvThread = false) :
    ∃ tr s, Exec (next ⟨Barrier.single, sv, rawSize, pipeSize, hraw, hpipe⟩)
        (init ⟨Barrier.single, sv, rawSize, pipeSize, hraw, hpipe⟩) tr s ∧
      Meets (fun s e ↦ Undisturbed s e ∧
        Room ⟨Barrier.single, sv, rawSize, pipeSize, hraw, hpipe⟩ s e) tr ∧
      Stuck ⟨Barrier.single, sv, rawSize, pipeSize, hraw, hpipe⟩ s ∧
      Barrier.begun (barrierTrace tr) () 0 = 1 ∧ s.barrier.calls () 0 = .waiting := by
  obtain ⟨tr, b, hexec, hC, hbegun, hwaiting, hstuck⟩ := Barrier.exists_released hbarrier
  obtain ⟨tr', s, hexec', rfl, rfl, hall, hsender, hidle⟩ :=
    exec_init hraw hpipe hexec (hC.mono fun _ _ he ↦ he.2)
  refine ⟨tr', s, hexec', undisturbed_of_withheld hall hC _,
    stuck_of_barrier hsender (fun v ↦ .inr (hidle v)) fun e he ↦ .inl ?_, hbegun, hwaiting⟩
  by_cases hdelivered : e = .relay (.delivered ())
  · subst hdelivered
    have hdelivers : (Barrier.program Barrier.single sv).delivers = false := by
      simpa [Barrier.program, Services.slave_eq, Services.recvThread] using hrecv
    simp [Barrier.next, Relay.next, hdelivers]
  · exact hstuck e he hdelivered

/-- With the redirect service the release waits behind input for which there is no room, and
the child that would read it waits for the release. -/
theorem exists_unread (hbarrier : sv.barrier = true) (hredirect : sv.redirect = true) :
    ∃ tr s, Exec (next ⟨Barrier.single, sv, rawSize, pipeSize, hraw, hpipe⟩)
        (init ⟨Barrier.single, sv, rawSize, pipeSize, hraw, hpipe⟩) tr s ∧
      Meets Undisturbed tr ∧ Stuck ⟨Barrier.single, sv, rawSize, pipeSize, hraw, hpipe⟩ s ∧
      Barrier.begun (barrierTrace tr) () 0 = 1 ∧ s.barrier.calls () 0 = .waiting := by
  obtain ⟨cfg, hcfg⟩ : ∃ cfg : Stdin.Config Unit,
    cfg = ⟨Barrier.single, sv, rawSize, pipeSize, hraw, hpipe⟩ := ⟨_, rfl⟩
  have hservices : cfg.services.redirect = true := hcfg ▸ hredirect
  have hinit : init cfg = ⟨Barrier.init, Stdin.init⟩ := by
    simp [init, Stdin.init, hservices, Services.slave_eq, Services.recvThread]
  obtain ⟨d, ⟨tr₁, hexec₁, hC₁⟩, hselecting, hlink, hst⟩ := Stdin.reaches_stuck hservices ()
  obtain ⟨tr₂, hexec₂, hC₂, htrace₂⟩ := exec_input Barrier.init hexec₁ hC₁
  obtain ⟨tr, b, hexec, hC, hbegun, hwaiting, hstuck⟩ := Barrier.exists_released hbarrier
  obtain ⟨tr₃, d', hexec₃, rfl, hall, hsender, hslave⟩ :=
    exec_lift cfg (by simpa only [hcfg] using hexec) (hC.mono fun _ _ he ↦ he.2) d
  obtain ⟨k, hk⟩ := hslave ()
  have hst' : (d'.slave ()).Stuck cfg := by
    rw [hk]
    exact ⟨hst.opened, hst.full, hst.killed, hst.writing⟩
  rw [← hcfg]
  refine ⟨tr₂ ++ tr₃, ⟨b, d'⟩, hinit ▸ hexec₂.trans hexec₃, meets_append.mpr ⟨hC₂, ?_⟩,
    stuck_of_barrier ?_ (fun _ ↦ .inl hst') fun e he ↦ ?_, ?_, hwaiting⟩
  · exact (undisturbed_of_withheld hall hC cfg).mono fun _ _ he ↦ he.1
  · intro raw todo
    simp [hsender, hselecting]
  · by_cases hdelivered : e = .relay (.delivered ())
    · exact .inr ⟨(), hdelivered, hst'⟩
    · left
      simpa only [hcfg] using hstuck e he hdelivered
  · rw [barrierTrace_append, htrace₂, List.nil_append]
    exact hbegun

/-- A call that is refused is missing at the barrier for ever. -/
theorem exists_missing (hbarrier : sv.barrier = true) :
    ∃ tr s, Exec (next ⟨Barrier.pair, sv, rawSize, pipeSize, hraw, hpipe⟩)
        (init ⟨Barrier.pair, sv, rawSize, pipeSize, hraw, hpipe⟩) tr s ∧
      Stuck ⟨Barrier.pair, sv, rawSize, pipeSize, hraw, hpipe⟩ s ∧
      (∀ w, Barrier.begun (barrierTrace tr) w 0 = 1) ∧ s.barrier.calls true 0 = .waiting := by
  obtain ⟨tr, b, hexec, hC, hbegun, hwaiting, hstuck⟩ := Barrier.exists_refused hbarrier
  obtain ⟨tr', s, hexec', rfl, rfl, -, hsender, hidle⟩ := exec_init hraw hpipe hexec hC
  exact ⟨tr', s, hexec', stuck_of_barrier hsender (fun v ↦ .inr (hidle v))
    fun e he ↦ .inl (hstuck e he), hbegun, hwaiting⟩

/-- Full barriers open in all runs, of any number of nodes, in which no call returns -1, no slave
ends its `recv_thread` and the input has room in the pipes, just when the slaves start
`recv_thread`. Without the condition on the input they do so just when there is none and the
slaves start `recv_thread`, and without any condition for no services. -/
theorem full_barrier_opens_iff (hbarrier : sv.barrier = true) :
    ((∀ (V : Type) [DecidableEq V] (nodes : Nodes V),
        Opens ⟨nodes, sv, rawSize, pipeSize, hraw, hpipe⟩ fun s e ↦
          Undisturbed s e ∧ Room ⟨nodes, sv, rawSize, pipeSize, hraw, hpipe⟩ s e) ↔
      sv.redirect = true ∨ sv.exit = true ∨ sv.kill = true) ∧
    ((∀ (V : Type) [DecidableEq V] (nodes : Nodes V),
        Opens ⟨nodes, sv, rawSize, pipeSize, hraw, hpipe⟩ Undisturbed) ↔
      sv.redirect = false ∧ (sv.exit = true ∨ sv.kill = true)) ∧
    ¬ ∀ (V : Type) [DecidableEq V] (nodes : Nodes V),
        Opens ⟨nodes, sv, rawSize, pipeSize, hraw, hpipe⟩ fun _ _ ↦ True := by
  have hrecv : sv.recvThread = true ↔ sv.redirect = true ∨ sv.exit = true ∨ sv.kill = true := by
    simp [Services.recvThread, or_assoc]
  have hroom : ∀ (V : Type) [DecidableEq V] (nodes : Nodes V), sv.recvThread = true →
      Opens ⟨nodes, sv, rawSize, pipeSize, hraw, hpipe⟩ fun s e ↦
        Undisturbed s e ∧ Room ⟨nodes, sv, rawSize, pipeSize, hraw, hpipe⟩ s e :=
    fun V _ nodes hon ↦ opens_of_room hbarrier hon
  have hoff : sv.recvThread = false → ¬ Opens ⟨Barrier.single, sv, rawSize, pipeSize, hraw, hpipe⟩
      fun s e ↦ Undisturbed s e ∧
        Room ⟨Barrier.single, sv, rawSize, pipeSize, hraw, hpipe⟩ s e := by
    intro hoff hopens
    obtain ⟨tr, s, hexec, hC, hstuck, hbegun, hwaiting⟩ :=
      exists_unreceived hraw hpipe hbarrier hoff
    simpa [hwaiting] using hopens tr s hexec hC hstuck () 0 fun _ ↦ le_rfl
  refine ⟨?_, ?_, fun hopens ↦ ?_⟩
  · rw [← hrecv]
    constructor
    · intro hopens
      by_contra h
      exact hoff (by simpa using h) (hopens Unit Barrier.single)
    · exact fun hon V _ nodes ↦ hroom V nodes hon
  · constructor
    · intro hopens
      have hredirect : sv.redirect = false := by
        by_contra hredirect
        obtain ⟨tr, s, hexec, hC, hstuck, hbegun, hwaiting⟩ :=
          exists_unread hraw hpipe hbarrier (by simpa using hredirect)
        simpa [hwaiting] using
          hopens Unit Barrier.single tr s hexec hC hstuck () 0 fun _ ↦ le_rfl
      refine ⟨hredirect, ?_⟩
      by_contra h
      refine hoff (by simpa [hredirect] using mt hrecv.mp (by simpa [hredirect] using h)) ?_
      exact fun tr s hexec hC ↦ hopens Unit Barrier.single tr s hexec (hC.mono fun _ _ he ↦ he.1)
    · rintro ⟨hredirect, hon⟩ V _ nodes tr s hexec hC
      exact hroom V nodes (hrecv.mpr (.inr hon)) tr s hexec fun p hp ↦
        ⟨hC p hp, room_of_not_redirect hredirect hexec p hp⟩
  · obtain ⟨tr, s, hexec, hstuck, hbegun, hwaiting⟩ := exists_missing hraw hpipe hbarrier
    simpa [hwaiting] using hopens Bool Barrier.pair tr s hexec (fun _ _ ↦ trivial) hstuck true 0
      fun w ↦ (hbegun true).trans_le (hbegun w).ge

end Blocked

/-- With the barrier and the exit service full barriers open for any sizes of messages and
pipes. -/
theorem full_barrier_opens_exit : (Services.ofOptions [.barrier, .exit]).barrier = true ∧
    ∀ (V : Type) [DecidableEq V] (nodes : Nodes V),
      Opens ⟨nodes, .ofOptions [.barrier, .exit], 128, 65536, Nat.succ_pos _, Nat.succ_pos _⟩
        Undisturbed :=
  ⟨rfl, (full_barrier_opens_iff _ _ rfl).2.1.mpr ⟨rfl, .inl rfl⟩⟩

/-- With the barrier service alone, one child calls `axrun_sync(0)` and waits for ever. -/
theorem barrierOnly_blocks :
    let cfg : Stdin.Config Unit :=
      ⟨Barrier.single, .ofOptions [.barrier], 128, 65536, Nat.succ_pos _, Nat.succ_pos _⟩
    ∃ tr s, Exec (next cfg) (init cfg) tr s ∧
      Meets (fun s e ↦ Undisturbed s e ∧ Room cfg s e) tr ∧ Stuck cfg s ∧
      (∀ w, Barrier.begun (barrierTrace tr) w 0 = 1) ∧ s.barrier.calls () 0 = .waiting := by
  obtain ⟨tr, s, hexec, hC, hstuck, hbegun, hwaiting⟩ := @exists_unreceived
    (.ofOptions [.barrier]) 128 65536 (Nat.succ_pos _) (Nat.succ_pos _) rfl rfl
  exact ⟨tr, s, hexec, hC, hstuck, fun _ ↦ hbegun, hwaiting⟩

end AxiomApps.Run.FullBarrier
