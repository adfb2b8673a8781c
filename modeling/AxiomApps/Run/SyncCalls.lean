import AxiomApps.Run.Barrier

/-!
# Concurrent calls of axrun_sync

The name of the socket a call binds depends on the barrier only. At its end, also if it could
not bind the name, a call unlinks it. Here the threads of one child make any number of calls,
each step of which may fail; the slave sends releases to names.
-/

namespace AxiomApps.Run.SyncCalls

open EventSystem
open Barrier (Command axrunMaxBarrierId syncResult)

/-- Where a call is. From `bound` on it has to unlink the name; so has a call whose `bind`
failed. -/
inductive Phase
  | idle
  | begun (id : ℕ)
  | bound (id : ℕ)
  | waiting (id : ℕ)
  | error (id : ℕ)
  | done (id : ℕ)
  deriving DecidableEq, Repr

namespace Phase

/-- The name the call will unlink. -/
def unlinking : Phase → Option ℕ
  | idle | begun _ => none
  | bound id | waiting id | error id | done id => some id

/-- The name the call has bound, unless it has failed. -/
def named : Phase → Option ℕ
  | idle | begun _ | error _ => none
  | bound id | waiting id | done id => some id

/-- The name at which the socket of the call can be reached. -/
def reached : Phase → Option ℕ
  | idle | begun _ | error _ | done _ => none
  | bound id | waiting id => some id

theorem unlinking_of_named {p : Phase} {id : ℕ} (h : p.named = some id) :
    p.unlinking = some id := by
  cases p with
  | idle | begun k | error k => cases h
  | bound k | waiting k | done k => exact h

theorem named_of_reached {p : Phase} {id : ℕ} (h : p.reached = some id) :
    p.named = some id := by
  cases p with
  | idle | begun k | error k | done k => cases h
  | bound k | waiting k => exact h

end Phase

/-- The names that exist, each with the thread that has bound it, and the datagrams at the
sockets. -/
structure State (T : Type*) where
  phase : T → Phase
  names : ℕ → Option T
  queue : T → List Command

inductive Event (T : Type*)
  | calls (t : T) (id : ℕ)
  | rejected (t : T)
  | binds (t : T) (id : ℕ)
  | bindFails (t : T) (id : ℕ)
  | posts (t : T)
  | postFails (t : T)
  | recvFails (t : T)
  | receives (t : T)
  | fails (t : T)
  | returns (t : T)
  | release (id : ℕ) (d : Command)
  deriving DecidableEq

variable {T : Type*} [DecidableEq T]

namespace State

def setPhase (s : State T) (t : T) (p : Phase) : State T :=
  { s with phase := Function.update s.phase t p }

def unlink (s : State T) (id : ℕ) : State T :=
  { s with names := Function.update s.names id none }

end State

/-- `axrun_sync` step by step, and `recv_thread` on `CMD_BARRIER`. A call is rejected if the
barrier does not exist, the variable is not set or there is no socket: it then knows no name.
A release for a name that does not exist, or whose socket is closed, is lost. -/
def next (s : State T) : Event T → Option (State T)
  | .calls t id => if s.phase t = .idle then some (s.setPhase t (.begun id)) else none
  | .rejected t =>
      match s.phase t with
      | .begun _ => some (s.setPhase t .idle)
      | _ => none
  | .binds t id =>
      if s.phase t = .begun id ∧ id ≤ axrunMaxBarrierId ∧ s.names id = none then
        some { s.setPhase t (.bound id) with
               names := Function.update s.names id (some t)
               queue := Function.update s.queue t [] }
      else none
  | .bindFails t id =>
      if s.phase t = .begun id ∧ id ≤ axrunMaxBarrierId then some (s.setPhase t (.error id))
      else none
  | .posts t =>
      match s.phase t with
      | .bound id => some (s.setPhase t (.waiting id))
      | _ => none
  | .postFails t =>
      match s.phase t with
      | .bound id => some (s.setPhase t (.error id))
      | _ => none
  | .recvFails t =>
      match s.phase t with
      | .waiting id => some (s.setPhase t (.error id))
      | _ => none
  | .receives t =>
      match s.phase t, s.queue t with
      | .waiting id, d :: rest =>
          some { s.setPhase t (if syncResult id d = 0 then .done id else .error id) with
                 queue := Function.update s.queue t rest }
      | _, _ => none
  | .fails t =>
      match s.phase t with
      | .error id => some ((s.setPhase t .idle).unlink id)
      | _ => none
  | .returns t =>
      match s.phase t with
      | .done id => some ((s.setPhase t .idle).unlink id)
      | _ => none
  | .release id d =>
      match s.names id with
      | some t =>
          if (s.phase t).reached = some id then
            some { s with queue := Function.update s.queue t (s.queue t ++ [d]) }
          else some s
      | none => some s

def init : State T := ⟨fun _ ↦ .idle, fun _ ↦ none, fun _ ↦ []⟩

/-- The call returns -1 at this step. -/
def Event.Fails (t : T) (e : Event T) : Prop := e = .rejected t ∨ e = .fails t

/-- A call binds, or tries to, when no other call has still to unlink the name. -/
def Apart (s : State T) : Event T → Prop
  | .binds t id | .bindFails t id => ∀ u, u ≠ t → (s.phase u).unlinking ≠ some id
  | _ => True

instance [Fintype T] (s : State T) (e : Event T) : Decidable (Apart s e) :=
  match e with
  | .binds t id | .bindFails t id =>
      inferInstanceAs (Decidable (∀ u, u ≠ t → (s.phase u).unlinking ≠ some id))
  | .calls _ _ | .rejected _ | .posts _ | .postFails _ | .recvFails _ | .receives _ | .fails _
  | .returns _ | .release _ _ => isTrue trivial

/-! ## One step -/

/-- What a step can do to the calls and the names; a release changes neither. -/
inductive Steps (s : State T) : Event T → State T → Prop
  | calls (t : T) (id : ℕ) (hphase : s.phase t = .idle) :
      Steps s (.calls t id) (s.setPhase t (.begun id))
  | rejected (t : T) (id : ℕ) (hphase : s.phase t = .begun id) :
      Steps s (.rejected t) (s.setPhase t .idle)
  | binds (t : T) (id : ℕ) (hphase : s.phase t = .begun id) (hfree : s.names id = none) :
      Steps s (.binds t id) { s.setPhase t (.bound id) with
                              names := Function.update s.names id (some t)
                              queue := Function.update s.queue t [] }
  | bindFails (t : T) (id : ℕ) (hphase : s.phase t = .begun id) :
      Steps s (.bindFails t id) (s.setPhase t (.error id))
  | posts (t : T) (id : ℕ) (hphase : s.phase t = .bound id) :
      Steps s (.posts t) (s.setPhase t (.waiting id))
  | postFails (t : T) (id : ℕ) (hphase : s.phase t = .bound id) :
      Steps s (.postFails t) (s.setPhase t (.error id))
  | recvFails (t : T) (id : ℕ) (hphase : s.phase t = .waiting id) :
      Steps s (.recvFails t) (s.setPhase t (.error id))
  | receives (t : T) (id : ℕ) (d : Command) (rest : List Command)
      (hphase : s.phase t = .waiting id) (hqueue : s.queue t = d :: rest) :
      Steps s (.receives t)
        { s.setPhase t (if syncResult id d = 0 then .done id else .error id) with
          queue := Function.update s.queue t rest }
  | fails (t : T) (id : ℕ) (hphase : s.phase t = .error id) :
      Steps s (.fails t) ((s.setPhase t .idle).unlink id)
  | returns (t : T) (id : ℕ) (hphase : s.phase t = .done id) :
      Steps s (.returns t) ((s.setPhase t .idle).unlink id)
  | release (id : ℕ) (d : Command) (queue : T → List Command) :
      Steps s (.release id d) { s with queue := queue }

theorem next_cases {s s' : State T} {e : Event T} (h : next s e = some s') : Steps s e s' := by
  cases e with
  | calls t id =>
      simp only [next, Option.ite_none_right_eq_some, Option.some.injEq] at h
      obtain ⟨hphase, rfl⟩ := h
      exact .calls t id hphase
  | rejected t =>
      cases hphase : s.phase t <;> simp only [next, hphase, reduceCtorEq, Option.some.injEq] at h
      exact h ▸ .rejected t _ hphase
  | binds t id =>
      simp only [next, Option.ite_none_right_eq_some, Option.some.injEq] at h
      obtain ⟨⟨hphase, -, hfree⟩, rfl⟩ := h
      exact .binds t id hphase hfree
  | bindFails t id =>
      simp only [next, Option.ite_none_right_eq_some, Option.some.injEq] at h
      obtain ⟨⟨hphase, -⟩, rfl⟩ := h
      exact .bindFails t id hphase
  | posts t =>
      cases hphase : s.phase t <;> simp only [next, hphase, reduceCtorEq, Option.some.injEq] at h
      exact h ▸ .posts t _ hphase
  | postFails t =>
      cases hphase : s.phase t <;> simp only [next, hphase, reduceCtorEq, Option.some.injEq] at h
      exact h ▸ .postFails t _ hphase
  | recvFails t =>
      cases hphase : s.phase t <;> simp only [next, hphase, reduceCtorEq, Option.some.injEq] at h
      exact h ▸ .recvFails t _ hphase
  | receives t =>
      cases hphase : s.phase t <;> cases hqueue : s.queue t <;>
        simp only [next, hphase, hqueue, reduceCtorEq, Option.some.injEq] at h
      exact h ▸ .receives t _ _ _ hphase hqueue
  | fails t =>
      cases hphase : s.phase t <;> simp only [next, hphase, reduceCtorEq, Option.some.injEq] at h
      exact h ▸ .fails t _ hphase
  | returns t =>
      cases hphase : s.phase t <;> simp only [next, hphase, reduceCtorEq, Option.some.injEq] at h
      exact h ▸ .returns t _ hphase
  | release id d =>
      simp only [next] at h
      split at h
      · split_ifs at h <;> cases h
        · exact .release id d _
        · exact .release id d s.queue
      · cases h
        exact .release id d s.queue

/-! ## Names -/

/-- One call at a time is to unlink a name, and a call that has bound one still has it. -/
structure Inv (s : State T) : Prop where
  unique : ∀ t u id, (s.phase t).unlinking = some id → (s.phase u).unlinking = some id → t = u
  owner : ∀ t id, (s.phase t).named = some id → s.names id = some t

namespace Inv

variable {s : State T}

omit [DecidableEq T] in
theorem init : Inv (init : State T) :=
  ⟨nofun, nofun⟩

omit [DecidableEq T] in
theorem setQueue (hinv : Inv s) (queue : T → List Command) : Inv { s with queue := queue } :=
  ⟨hinv.unique, hinv.owner⟩

/-- A call moves on, without taking a name it did not have to unlink before. -/
theorem setPhase (hinv : Inv s) {t : T} {p : Phase}
    (hunlinking : ∀ id, p.unlinking = some id → ∀ u, u ≠ t → (s.phase u).unlinking ≠ some id)
    (hnamed : ∀ id, p.named = some id → s.names id = some t) : Inv (s.setPhase t p) := by
  constructor
  · intro u w id hu hw
    by_cases hut : u = t <;> by_cases hwt : w = t
    · exact hut.trans hwt.symm
    · simp only [State.setPhase, hut, Function.update_self, Function.update_of_ne hwt] at hu hw
      exact absurd hw (hunlinking id hu w hwt)
    · simp only [State.setPhase, hwt, Function.update_self, Function.update_of_ne hut] at hu hw
      exact absurd hu (hunlinking id hw u hut)
    · simp only [State.setPhase, Function.update_of_ne hut, Function.update_of_ne hwt] at hu hw
      exact hinv.unique u w id hu hw
  · intro u id hu
    by_cases hut : u = t
    · simp only [State.setPhase, hut, Function.update_self] at hu ⊢
      exact hnamed id hu
    · simp only [State.setPhase, Function.update_of_ne hut] at hu ⊢
      exact hinv.owner u id hu

/-- A call that already has to unlink its name moves on. -/
theorem advance (hinv : Inv s) {t : T} {p : Phase}
    (hunlinking : ∀ id, p.unlinking = some id → (s.phase t).unlinking = some id)
    (hnamed : ∀ id, p.named = some id → (s.phase t).named = some id) : Inv (s.setPhase t p) := by
  refine hinv.setPhase (fun id hid u hne hu ↦ ?_) fun id hid ↦ hinv.owner t id (hnamed id hid)
  exact hne (hinv.unique u t id hu (hunlinking id hid))

/-- Nobody else has bound the name a call unlinks. -/
theorem unlink (hinv : Inv s) {t : T} {id : ℕ} (ht : (s.phase t).unlinking = some id) :
    Inv ((s.setPhase t .idle).unlink id) := by
  have hidle : Inv (s.setPhase t .idle) := hinv.advance nofun nofun
  refine ⟨hidle.unique, fun u k hu ↦ ?_⟩
  have hut : u ≠ t := by
    rintro rfl
    simp [State.unlink, State.setPhase, Phase.named] at hu
  have hk : k ≠ id := by
    rintro rfl
    simp only [State.unlink, State.setPhase, Function.update_of_ne hut] at hu
    exact hut (hinv.unique u t k (Phase.unlinking_of_named hu) ht)
  simp only [State.unlink, Function.update_of_ne hk]
  exact hidle.owner u k hu

theorem binds (hinv : Inv s) {t : T} {id : ℕ} (hfree : s.names id = none)
    (hapart : ∀ u, u ≠ t → (s.phase u).unlinking ≠ some id) :
    Inv ({ s.setPhase t (.bound id) with
           names := Function.update s.names id (some t) } : State T) := by
  have hnames : Inv ({ s with names := Function.update s.names id (some t) } : State T) := by
    refine ⟨hinv.unique, fun u k hu ↦ ?_⟩
    have howner := hinv.owner u k hu
    have hk : k ≠ id := by
      rintro rfl
      rw [hfree] at howner
      cases howner
    simp only [Function.update_of_ne hk]
    exact howner
  refine hnames.setPhase (t := t) (p := .bound id) ?_ ?_
  · rintro _ ⟨⟩
    exact hapart
  · rintro _ ⟨⟩
    simp

end Inv

variable {s s' : State T} {e : Event T}

theorem inv_step (hinv : Inv s) (hapart : Apart s e) (hnext : next s e = some s') : Inv s' := by
  cases next_cases hnext with
  | calls t id hphase => exact hinv.advance nofun nofun
  | rejected t id hphase => exact hinv.advance nofun nofun
  | binds t id hphase hfree => exact (hinv.binds hfree hapart).setQueue _
  | bindFails t id hphase =>
      refine hinv.setPhase ?_ nofun
      rintro _ ⟨⟩
      exact hapart
  | posts t id hphase =>
      exact hinv.advance (by simp [hphase, Phase.unlinking]) (by simp [hphase, Phase.named])
  | postFails t id hphase => exact hinv.advance (by simp [hphase, Phase.unlinking]) nofun
  | recvFails t id hphase => exact hinv.advance (by simp [hphase, Phase.unlinking]) nofun
  | receives t id d rest hphase hqueue =>
      refine Inv.setQueue (hinv.advance ?_ ?_) _
      · split_ifs <;> simp [hphase, Phase.unlinking]
      · split_ifs <;> simp [hphase, Phase.named]
  | fails t id hphase => exact hinv.unlink (by rw [hphase]; rfl)
  | returns t id hphase => exact hinv.unlink (by rw [hphase]; rfl)
  | release id d queue => exact hinv.setQueue queue

/-- A release sent to a name that a call has bound arrives. -/
theorem Inv.release (hinv : Inv s) {u : T} {id : ℕ} (hu : (s.phase u).reached = some id)
    (d : Command) : ∃ s', next s (.release id d) = some s' ∧ s'.queue u = s.queue u ++ [d] := by
  have howner := hinv.owner u id (Phase.named_of_reached hu)
  refine ⟨{ s with queue := Function.update s.queue u (s.queue u ++ [d]) }, ?_, by simp⟩
  simp [next, howner, hu]

/-- A step at which a call returns -1 changes no other call. -/
theorem phase_of_fails {t u : T} (he : e.Fails t) (hnext : next s e = some s') (hne : u ≠ t) :
    s'.phase u = s.phase u := by
  rcases he with rfl | rfl
  · cases next_cases hnext
    simp [State.setPhase, Function.update_of_ne hne]
  · cases next_cases hnext
    simp [State.setPhase, State.unlink, Function.update_of_ne hne]

/-- If the calls at one barrier keep apart, then a call that returns -1 leaves the name of
every other call that waits, or is about to, and a release sent to it arrives. -/
theorem failing_call_disturbs_nobody {tr : List (State T × Event T)}
    (h : Exec next init tr s) (hC : Meets Apart tr) {t : T} (he : e.Fails t)
    (hnext : next s e = some s') :
    ∀ u, u ≠ t → ∀ id, (s.phase u).reached = some id →
      s'.phase u = s.phase u ∧ s'.names id = some u ∧
      ∀ d, ∃ s'', next s' (.release id d) = some s'' ∧ s''.queue u = s'.queue u ++ [d] := by
  intro u hne id hu
  have hinv : Inv s :=
    h.invariant .init (fun _ _ _ hinv hapart hnext ↦ inv_step hinv hapart hnext) hC
  have hapart : Apart s e := by
    rcases he with rfl | rfl <;> trivial
  have hinv' := inv_step hinv hapart hnext
  have hphase := phase_of_fails he hnext hne
  have hu' : (s'.phase u).reached = some id := by rwa [hphase]
  exact ⟨hphase, hinv'.owner u id (Phase.named_of_reached hu'), hinv'.release hu'⟩

/-- One thread waits at barrier 0 while a call at barrier 1 cannot send its request. -/
theorem failing_call_other_barrier :
    ∃ (s s' : State Bool), s.phase true = .waiting 0 ∧ next s (.fails false) = some s' ∧
      s'.names 0 = some true := by
  obtain ⟨tr, s, hexec, hC, hwaits, herror⟩ : ∃ tr s, Exec next (init : State Bool) tr s ∧
      Meets Apart tr ∧ s.phase true = .waiting 0 ∧ s.phase false = .error 1 :=
    Exec.exists_of_run [.calls true 0, .binds true 0, .posts true, .calls false 1,
      .binds false 1, .postFails false] (by decide)
  have hnext : next s (.fails false) = some ((s.setPhase false .idle).unlink 1) := by
    simp [next, herror]
  exact ⟨s, _, hwaits, hnext, (failing_call_disturbs_nobody hexec hC (.inr rfl) hnext true
    (by decide) 0 (by rw [hwaits]; rfl)).2.1⟩

/-- Two threads call `axrun_sync(0)`: the second cannot bind the name and removes it, and the
release of the first is lost. -/
theorem failing_call_takes_name :
    ∃ tr s, Exec next (init : State Bool) tr s ∧ Meets (fun _ _ ↦ True) tr ∧
      s.phase true = .waiting 0 ∧ s.phase false = .idle ∧ s.names 0 = none ∧ s.queue true = [] ∧
      tr.map Prod.snd = [.calls true 0, .binds true 0, .posts true, .calls false 0,
        .bindFails false 0, .fails false, .release 0 .barrier] :=
  Exec.exists_of_run [.calls true 0, .binds true 0, .posts true, .calls false 0,
    .bindFails false 0, .fails false, .release 0 .barrier] (by decide)

end AxiomApps.Run.SyncCalls
