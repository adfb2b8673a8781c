import AxiomApps.Lib.Execution
import AxiomApps.Run.Services

/-!
# How a slave starts its child

The child is forked before the service threads exist and waits in shared memory for a word to
become positive. The slave creates the threads its services need, waits until as many have
counted themselves as it has created, and then adds to the word. A slave without services does
none of this.
-/

namespace AxiomApps.Run.ChildStart

open EventSystem

/-! ## The slave and its child -/

inductive Thread
  | out
  | err
  | recv
  | sock
  deriving DecidableEq, Repr

/-- The threads `manage_slave_services` creates, in that order. -/
def threads (sv : Services) : List Thread :=
  (if sv.redirect then [.out, .err] else []) ++ (if sv.recvThread then [.recv] else []) ++
    (if sv.sockThread then [.sock] else [])

/-- A thread counts itself before it gets its socket ready. -/
inductive Phase
  | absent
  | created
  | counted
  | ready
  deriving DecidableEq, Repr

def Phase.isCounted : Phase → Bool
  | .counted | .ready => true
  | .absent | .created => false

theorem Phase.isCounted_iff {phase : Phase} :
    phase.isCounted = true ↔ phase = .counted ∨ phase = .ready := by
  cases phase <;> simp [isCounted]

/-- The main program of the slave, from `wait_on_barrier` to `waitpid`. -/
inductive Main
  | starting
  | forking
  | creating (todo : List Thread)
  | waking
  | waiting
  | left
  deriving DecidableEq, Repr

/-- The child in `sync_wait`, before and after `execvpe`. -/
inductive Child
  | unborn
  | polling
  | woken
  | running
  | ended
  deriving DecidableEq, Repr

/-- `started_threads`, `tostart_threads` and the shared word, with the places of all. -/
structure State where
  main : Main
  thread : Thread → Phase
  started : ℕ
  tostart : ℕ
  word : ℕ
  child : Child

/-- `slaveEnded` is a signal, or a failure of `fork`, `eventfd`, `pthread_create`, `socket` or
`bind`; `childEnded` is a signal, a failure of `execvpe`, or the end of the application. -/
inductive Event
  | notified
  | forked
  | threadCreated
  | threadCounted (t : Thread)
  | threadReady (t : Thread)
  | polled
  | wokeUp
  | childPolled
  | execed
  | childEnded
  | slaveEnded
  deriving DecidableEq, Repr

/-- The services of the slave, and whether there are nodes to run gdbserver on. -/
structure Config where
  services : Services
  gdb : Bool

/-- The slave has opened its device. -/
def Config.opened (cfg : Config) : Bool := cfg.services ≠ .none || cfg.gdb

/-- The threads end with the process. -/
def next (cfg : Config) (s : State) : Event → Option State
  | .notified =>
      if s.main = .starting ∧ cfg.opened then some { s with main := .forking } else none
  | .forked =>
      if s.main = .forking then
        some { s with
          main := if cfg.services = .none then .left else .creating (threads cfg.services)
          child := .polling }
      else none
  | .threadCreated =>
      match s.main with
      | .creating (t :: todo) =>
          some { s with
            main := .creating todo
            thread := Function.update s.thread t .created
            tostart := s.tostart + 1 }
      | _ => none
  | .threadCounted t =>
      if s.main ≠ .left ∧ s.thread t = .created then
        some { s with
          thread := Function.update s.thread t .counted
          started := s.started + 1 }
      else none
  | .threadReady t =>
      if s.main ≠ .left ∧ s.thread t = .counted then
        some { s with thread := Function.update s.thread t .ready }
      else none
  | .polled =>
      if s.main = .creating [] then
        some (if s.started = s.tostart then { s with main := .waking } else s)
      else none
  | .wokeUp =>
      if s.main = .waking then some { s with main := .waiting, word := s.word + 1 } else none
  | .childPolled =>
      if s.child = .polling then some (if s.word = 0 then s else { s with child := .woken })
      else none
  | .execed => if s.child = .woken then some { s with child := .running } else none
  | .childEnded =>
      if s.child = .unborn ∨ s.child = .ended then none else some { s with child := .ended }
  | .slaveEnded => if s.main = .left then none else some { s with main := .left }

def init : State := ⟨.starting, fun _ ↦ .absent, 0, 0, 0, .unborn⟩

/-- Neither the slave nor its child ends. -/
def Lasts (_ : State) (e : Event) : Prop := e ≠ .slaveEnded ∧ e ≠ .childEnded

/-! ## The invariant -/

def allThreads : Nodes Thread where
  toList := [.out, .err, .recv, .sock]
  nodup := by decide
  mem := fun t ↦ by cases t <;> decide

structure Inv (cfg : Config) (s : State) : Prop where
  early : s.main = .starting ∨ s.main = .forking → (∀ t, s.thread t = .absent) ∧ s.child = .unborn
  creating : ∀ todo, s.main = .creating todo → cfg.services ≠ .none ∧
    ∃ done, threads cfg.services = done ++ todo ∧ ∀ t, s.thread t ≠ .absent ↔ t ∈ done
  started : s.started = allThreads.toList.countP fun t ↦ (s.thread t).isCounted
  tostart : s.main ≠ .left → s.tostart = allThreads.toList.countP fun t ↦ s.thread t ≠ .absent
  late : s.main = .waking ∨ s.word ≠ 0 → cfg.services ≠ .none ∧
    ∀ t ∈ threads cfg.services, (s.thread t).isCounted = true
  waiting : s.main = .waiting → s.word ≠ 0
  woken : s.child = .woken ∨ s.child = .running → s.word ≠ 0

variable {cfg : Config} {s s' : State} {tr : List (State × Event)}

theorem nodup_threads (sv : Services) : (threads sv).Nodup := by
  rw [threads]
  split_ifs <;> decide

/-- Of two properties, one implying the other and both counted alike, each implies the other. -/
theorem imp_of_countP_eq {α : Type*} {p q : α → Bool} (hpq : ∀ x, p x = true → q x = true)
    {l : List α} (h : l.countP p = l.countP q) : ∀ x ∈ l, q x = true → p x = true := by
  induction l with
  | nil => simp
  | cons a l ih =>
      have hle : l.countP p ≤ l.countP q := List.countP_mono_left fun x _ ↦ hpq x
      rw [List.countP_cons, List.countP_cons] at h
      have ha : q a = true → p a = true := by
        intro hq
        by_contra hp
        rw [if_pos hq, if_neg hp] at h
        omega
      refine List.forall_mem_cons.mpr ⟨ha, ih ?_⟩
      have heq : p a = q a := Bool.eq_iff_iff.mpr ⟨hpq a, ha⟩
      rw [heq] at h
      omega

theorem inv_init : Inv cfg init where
  early _ := ⟨fun _ ↦ rfl, rfl⟩
  creating _ h := by cases h
  started := rfl
  tostart _ := rfl
  late h := by
    rcases h with h | h
    · cases h
    · exact absurd rfl h
  waiting h := by cases h
  woken h := by rcases h with h | h <;> cases h

namespace Inv

theorem absent (hi : Inv cfg s) {t : Thread} {todo : List Thread}
    (hmain : s.main = .creating (t :: todo)) : s.thread t = .absent := by
  obtain ⟨-, done, hthreads, hdone⟩ := hi.creating _ hmain
  have hnodup := nodup_threads cfg.services
  rw [hthreads, List.nodup_append] at hnodup
  by_contra hpresent
  exact hnodup.2.2 t ((hdone t).mp hpresent) t List.mem_cons_self rfl

theorem threadCreated (hi : Inv cfg s) {t : Thread} {todo : List Thread}
    (hmain : s.main = .creating (t :: todo)) :
    Inv cfg { s with
      main := .creating todo
      thread := Function.update s.thread t .created
      tostart := s.tostart + 1 } := by
  obtain ⟨hsome, done, hthreads, hdone⟩ := hi.creating _ hmain
  have ht := hi.absent hmain
  refine {
    early := by simp
    creating := ?_
    started := ?_
    tostart := ?_
    late := ?_
    waiting := by simp
    woken := hi.woken }
  · rintro _ ⟨⟩
    refine ⟨hsome, done ++ [t], by simp [hthreads], fun u ↦ ?_⟩
    by_cases hu : u = t
    · subst hu
      simp
    · simpa [hu] using hdone u
  · rw [hi.started]
    refine List.countP_congr fun u _ ↦ ?_
    by_cases hu : u = t
    · subst hu
      simp [ht, Phase.isCounted]
    · simp [hu]
  · intro _
    simp only [hi.tostart (by simp [hmain])]
    refine (allThreads.countP_succ (v := t) (by simp [ht]) (by simp) fun u hu ↦ ?_).symm
    simp [hu]
  · -- the word is still zero, for the thread just created was not counted
    rintro (h | hword)
    · cases h
    · have hcounted := (hi.late (.inr hword)).2 t (by simp [hthreads])
      simp [ht, Phase.isCounted] at hcounted

/-- A thread that is there goes on to a phase in which it is counted. -/
theorem setThread (hi : Inv cfg s) {t : Thread} {phase : Phase} {n : ℕ}
    (ht : s.thread t ≠ .absent) (hphase : phase.isCounted = true)
    (hn : n = s.started + if (s.thread t).isCounted then 0 else 1) :
    Inv cfg { s with thread := Function.update s.thread t phase, started := n } := by
  have habsent : ∀ u, Function.update s.thread t phase u = .absent ↔ s.thread u = .absent := by
    intro u
    by_cases hu : u = t
    · subst hu
      simp only [Function.update_self, ht, iff_false]
      rintro rfl
      cases hphase
    · simp [hu]
  refine {
    early := fun hearly ↦ absurd ((hi.early hearly).1 t) ht
    creating := fun todo htodo ↦ by simpa only [habsent, ne_eq] using hi.creating todo htodo
    started := ?_
    tostart := fun hleft ↦ by simpa only [habsent, ne_eq] using hi.tostart hleft
    late := fun hlate ↦ ⟨(hi.late hlate).1, fun u hu ↦ ?_⟩
    waiting := hi.waiting
    woken := hi.woken }
  · rw [hn, hi.started]
    have hother : ∀ u, u ≠ t →
        (Function.update s.thread t phase u).isCounted = (s.thread u).isCounted := by
      intro u hu
      simp [hu]
    cases hwas : (s.thread t).isCounted with
    | false =>
        exact (allThreads.countP_succ hwas (by simpa using hphase) hother).symm
    | true =>
        refine List.countP_congr fun u _ ↦ ?_
        by_cases hu : u = t
        · subst hu
          simp [hwas, hphase]
        · rw [hother u hu]
  · by_cases hut : u = t
    · subst hut
      simpa using hphase
    · simpa [hut] using (hi.late hlate).2 u hu

/-- All threads have been created, and as many have counted themselves. -/
theorem counted (hi : Inv cfg s) (hmain : s.main = .creating []) (hall : s.started = s.tostart) :
    cfg.services ≠ .none ∧ ∀ t ∈ threads cfg.services, (s.thread t).isCounted = true := by
  obtain ⟨hsome, done, hthreads, hdone⟩ := hi.creating _ hmain
  rw [hi.started, hi.tostart (by simp [hmain])] at hall
  have hcounted := imp_of_countP_eq (fun t ht ↦ by
    rcases hphase : s.thread t <;> simp_all [Phase.isCounted]) hall
  refine ⟨hsome, fun t ht ↦ hcounted t (allThreads.mem t) ?_⟩
  rw [hthreads, List.append_nil] at ht
  simpa using (hdone t).mpr ht

theorem step (hi : Inv cfg s) {e : Event} (h : next cfg s e = some s') : Inv cfg s' := by
  cases e with
  | notified =>
      obtain ⟨⟨hmain, -⟩, rfl⟩ := by simpa only [next, Option.ite_none_right_eq_some,
        Option.some.injEq] using h
      have hearly := hi.early (.inl hmain)
      exact ⟨fun _ ↦ hearly, by simp, hi.started, fun _ ↦ hi.tostart (by simp [hmain]),
        fun hlate ↦ hi.late (.inr (by simpa using hlate)), by simp, hi.woken⟩
  | forked =>
      obtain ⟨hmain, rfl⟩ := by simpa only [next, Option.ite_none_right_eq_some,
        Option.some.injEq] using h
      have hearly := hi.early (.inr hmain)
      refine ⟨?_, ?_, hi.started, fun _ ↦ hi.tostart (by simp [hmain]), fun hlate ↦ ?_, ?_, by simp⟩
      · split_ifs <;> simp
      · intro todo htodo
        split_ifs at htodo with hnone
        cases htodo
        exact ⟨hnone, [], rfl, by simp [hearly.1]⟩
      · split_ifs at hlate <;> exact hi.late (.inr (by simpa using hlate))
      · split_ifs <;> simp
  | threadCreated =>
      simp only [next] at h
      split at h
      · next t todo hmain =>
          cases h
          exact hi.threadCreated hmain
      · cases h
  | threadCounted t =>
      obtain ⟨⟨-, ht⟩, rfl⟩ := by simpa only [next, Option.ite_none_right_eq_some,
        Option.some.injEq] using h
      exact hi.setThread (by simp [ht]) rfl (by simp [ht, Phase.isCounted])
  | threadReady t =>
      obtain ⟨⟨-, ht⟩, rfl⟩ := by simpa only [next, Option.ite_none_right_eq_some,
        Option.some.injEq] using h
      exact hi.setThread (by simp [ht]) rfl (by simp [ht, Phase.isCounted])
  | polled =>
      obtain ⟨hmain, rfl⟩ := by simpa only [next, Option.ite_none_right_eq_some,
        Option.some.injEq] using h
      split_ifs with hall
      · exact ⟨by simp, by simp, hi.started, fun _ ↦ hi.tostart (by simp [hmain]),
          fun _ ↦ hi.counted hmain hall, by simp, hi.woken⟩
      · exact hi
  | wokeUp =>
      obtain ⟨hmain, rfl⟩ := by simpa only [next, Option.ite_none_right_eq_some,
        Option.some.injEq] using h
      exact ⟨by simp, by simp, hi.started, fun _ ↦ hi.tostart (by simp [hmain]),
        fun _ ↦ hi.late (.inl hmain), by simp, by simp⟩
  | childPolled =>
      obtain ⟨hchild, rfl⟩ := by simpa only [next, Option.ite_none_right_eq_some,
        Option.some.injEq] using h
      split_ifs with hword
      · exact hi
      · exact { hi with
          early := fun hearly ↦ by simp [(hi.early hearly).2] at hchild
          woken := fun _ ↦ hword }
  | execed =>
      obtain ⟨hchild, rfl⟩ := by simpa only [next, Option.ite_none_right_eq_some,
        Option.some.injEq] using h
      exact { hi with
        early := fun hearly ↦ by simp [(hi.early hearly).2] at hchild
        woken := fun _ ↦ hi.woken (.inl hchild) }
  | childEnded =>
      obtain ⟨hchild, rfl⟩ := by simpa only [next, Option.ite_none_left_eq_some,
        Option.some.injEq] using h
      exact { hi with
        early := fun hearly ↦ absurd (.inl (hi.early hearly).2) hchild
        woken := by simp }
  | slaveEnded =>
      obtain ⟨-, rfl⟩ := by simpa only [next, Option.ite_none_left_eq_some,
        Option.some.injEq] using h
      exact ⟨by simp, by simp, hi.started, by simp,
        fun hlate ↦ hi.late (.inr (by simpa using hlate)), by simp, hi.woken⟩

theorem of_exec (h : Exec (next cfg) init tr s) : Inv cfg s :=
  h.invariant (C := fun _ _ ↦ True) inv_init (fun _ _ _ hi _ hnext ↦ hi.step hnext)
    fun _ _ ↦ trivial

end Inv

/-! ## Progress -/

def Main.rank : Main → ℕ
  | .starting => 8
  | .forking => 7
  | .creating todo => todo.length + 2
  | .waking => 1
  | .waiting | .left => 0

def Child.rank : Child → ℕ
  | .unborn => 3
  | .polling => 2
  | .woken => 1
  | .running | .ended => 0

def rank (s : State) : ℕ :=
  s.main.rank + s.child.rank + allThreads.toList.countP fun t ↦ !(s.thread t).isCounted

/-- Both processes are there. -/
structure Lasting (cfg : Config) (s : State) : Prop extends Inv cfg s where
  main : s.main ≠ .left
  child : s.child ≠ .ended
  born : s.child = .unborn → s.main = .starting ∨ s.main = .forking

theorem length_threads_le (sv : Services) : (threads sv).length ≤ 4 := by
  rw [threads]
  split_ifs <;> decide

theorem lasting_init : Lasting cfg init :=
  ⟨inv_init, by simp [init], by simp [init], fun _ ↦ .inl rfl⟩

namespace Lasting

theorem step (hsome : cfg.services ≠ .none) (hl : Lasting cfg s) {e : Event} (he : Lasts s e)
    (h : next cfg s e = some s') : Lasting cfg s' := by
  suffices hs' : s'.main ≠ .left ∧ s'.child ≠ .ended ∧
      (s'.child = .unborn → s'.main = .starting ∨ s'.main = .forking) from
    ⟨hl.toInv.step h, hs'.1, hs'.2.1, hs'.2.2⟩
  obtain ⟨-, hmain, hchild, hborn⟩ := hl
  cases e with
  | slaveEnded => exact absurd rfl he.1
  | childEnded => exact absurd rfl he.2
  | _ => grind [next]

/-- While a thread of the services has not counted itself, one can. -/
theorem exists_created (hl : Lasting cfg s) (hne : s.started ≠ s.tostart) :
    ∃ t, s.thread t = .created := by
  by_contra hnone
  rw [hl.started, hl.tostart hl.main] at hne
  refine hne (List.countP_congr fun t _ ↦ ?_)
  have ht : s.thread t ≠ .created := fun h ↦ hnone ⟨t, h⟩
  cases hphase : s.thread t <;> simp_all [Phase.isCounted]

theorem exists_step (hsome : cfg.services ≠ .none) (hl : Lasting cfg s)
    (hrunning : s.child ≠ .running) : ∃ e s', (Lasts s e ∧ ∀ t, e ≠ .threadReady t) ∧
      next cfg s e = some s' ∧ rank s' < rank s := by
  cases hmain : s.main with
  | starting =>
      refine ⟨.notified, { s with main := .forking }, by simp [Lasts], ?_, ?_⟩
      · simp [next, hmain, Config.opened, hsome]
      · simp [rank, hmain, Main.rank]
  | forking =>
      refine ⟨.forked, { s with main := .creating (threads cfg.services), child := .polling },
        by simp [Lasts], ?_, ?_⟩
      · simp [next, hmain, hsome]
      · have hlen := length_threads_le cfg.services
        simp only [rank, hmain, (hl.early (.inr hmain)).2, Main.rank, Child.rank]
        omega
  | creating todo =>
      cases todo with
      | cons t todo =>
          refine ⟨.threadCreated, { s with
            main := .creating todo
            thread := Function.update s.thread t .created
            tostart := s.tostart + 1 }, by simp [Lasts], by simp [next, hmain], ?_⟩
          have hcount : (allThreads.toList.countP fun u ↦
              !(Function.update s.thread t .created u).isCounted) =
              allThreads.toList.countP fun u ↦ !(s.thread u).isCounted := by
            refine List.countP_congr fun u _ ↦ ?_
            by_cases hu : u = t
            · subst hu
              simp [hl.absent hmain, Phase.isCounted]
            · simp [hu]
          simp only [rank, hmain, Main.rank, hcount, List.length_cons]
          omega
      | nil =>
          by_cases hall : s.started = s.tostart
          · refine ⟨.polled, { s with main := .waking }, by simp [Lasts], ?_, ?_⟩
            · simp [next, hmain, hall]
            · simp [rank, hmain, Main.rank]
          · obtain ⟨t, ht⟩ := hl.exists_created hall
            refine ⟨.threadCounted t, { s with
              thread := Function.update s.thread t .counted
              started := s.started + 1 }, by simp [Lasts], by simp [next, ht, hl.main], ?_⟩
            have hcount : (allThreads.toList.countP fun u ↦ !(s.thread u).isCounted) =
                (allThreads.toList.countP fun u ↦
                  !(Function.update s.thread t .counted u).isCounted) + 1 := by
              refine allThreads.countP_succ (v := t) ?_ ?_ fun u hu ↦ ?_
              · simp [Phase.isCounted]
              · simp [ht, Phase.isCounted]
              · simp [hu]
            simp only [rank, hcount]
            omega
  | waking =>
      refine ⟨.wokeUp, { s with main := .waiting, word := s.word + 1 }, by simp [Lasts], ?_, ?_⟩
      · simp [next, hmain]
      · simp [rank, hmain, Main.rank]
  | waiting =>
      have hword := hl.waiting hmain
      cases hchild : s.child with
      | unborn => simpa [hmain] using hl.born hchild
      | polling =>
          refine ⟨.childPolled, { s with child := .woken }, by simp [Lasts], ?_, ?_⟩
          · simp [next, hchild, hword]
          · simp [rank, hchild, Child.rank]
      | woken =>
          refine ⟨.execed, { s with child := .running }, by simp [Lasts], ?_, ?_⟩
          · simp [next, hchild]
          · simp [rank, hchild, Child.rank]
      | running => exact absurd hchild hrunning
      | ended => exact absurd hchild hl.child
  | left => exact absurd hmain hl.main

theorem of_exec (hsome : cfg.services ≠ .none) (h : Exec (next cfg) init tr s)
    (hlasts : Meets Lasts tr) : Lasting cfg s :=
  h.invariant lasting_init (fun _ _ _ hl he hnext ↦ hl.step hsome he hnext) hlasts

/-- The child comes to run without any thread having its socket ready. -/
theorem exists_running (hsome : cfg.services ≠ .none) (hl : Lasting cfg s) :
    ∃ s', Reaches (next cfg) (fun s e ↦ Lasts s e ∧ ∀ t, e ≠ .threadReady t) s s' ∧
      s'.child = .running := by
  refine Reaches.exists_of_progress rank (fun s hl hrunning ↦ ?_) hl
  obtain ⟨e, s', he, hnext, hlt⟩ := hl.exists_step hsome hrunning
  exact ⟨e, s', he, hnext, hl.step hsome he.1 hnext, hlt⟩

end Lasting

theorem ready_of_next {e : Event} (he : ∀ t, e ≠ .threadReady t) (h : next cfg s e = some s')
    {t : Thread} (ht : s'.thread t = .ready) : s.thread t = .ready := by
  have hupdate : ∀ u phase, phase ≠ .ready →
      Function.update s.thread u phase t = .ready → s.thread t = .ready := by
    intro u phase hphase hready
    by_cases hu : t = u
    · exact absurd (by simpa [hu] using hready) hphase
    · simpa [hu] using hready
  cases e with
  | threadReady u => exact absurd rfl (he u)
  | threadCreated =>
      simp only [next] at h
      split at h <;> cases h
      exact hupdate _ _ (by simp) ht
  | threadCounted u =>
      obtain ⟨-, rfl⟩ := by simpa only [next, Option.ite_none_right_eq_some,
        Option.some.injEq] using h
      exact hupdate _ _ (by simp) ht
  | _ => grind [next]

/-- Where the services of a master, the allocator apart, are not empty, the child of a slave can
come to run from every state that neither it nor the slave has ended in, and runs in no state
before all threads of the slave have counted themselves. That is no promise that a thread can
be talked to: the child can run before any of them has its socket. Under a master of which the
allocator is the only service, the child never runs. -/
theorem child_starts (sv : Services) (gdb : Bool) :
    (∀ tr s, Exec (next ⟨sv.slave, gdb⟩) init tr s → s.child = .running →
      sv.slave ≠ .none ∧ ∀ t ∈ threads sv.slave, s.thread t = .counted ∨ s.thread t = .ready) ∧
    (sv.slave ≠ .none →
      (∀ tr s, Exec (next ⟨sv.slave, gdb⟩) init tr s → Meets Lasts tr →
        ∃ s', Reaches (next ⟨sv.slave, gdb⟩) Lasts s s' ∧ s'.child = .running) ∧
      ∃ s, Reaches (next ⟨sv.slave, gdb⟩) Lasts init s ∧ s.child = .running ∧
        ∀ t ∈ threads sv.slave, s.thread t = .counted) := by
  refine ⟨fun tr s hexec hrunning ↦ ?_, fun hsome ↦ ⟨fun tr s hexec hlasts ↦ ?_, ?_⟩⟩
  · have hi := Inv.of_exec hexec
    obtain ⟨hsome, hcounted⟩ := hi.late (.inr (hi.woken (.inr hrunning)))
    exact ⟨hsome, fun t ht ↦ Phase.isCounted_iff.mp (hcounted t ht)⟩
  · obtain ⟨s', hreaches, hrunning⟩ := (Lasting.of_exec hsome hexec hlasts).exists_running hsome
    obtain ⟨tr', hexec', htr'⟩ := hreaches
    exact ⟨s', ⟨tr', hexec', htr'.mono fun _ _ ↦ And.left⟩, hrunning⟩
  · have hinit : Lasting ⟨sv.slave, gdb⟩ init := lasting_init
    obtain ⟨s, ⟨tr, hexec, htr⟩, hrunning⟩ := hinit.exists_running hsome
    have hunready : ∀ t, s.thread t ≠ .ready :=
      hexec.invariant (I := fun s ↦ ∀ t, s.thread t ≠ .ready) (by simp [init])
        (fun _ _ _ hs he hnext t ht ↦ hs t (ready_of_next he.2 hnext ht)) htr
    have hi := Inv.of_exec hexec
    refine ⟨s, ⟨tr, hexec, htr.mono fun _ _ ↦ And.left⟩, hrunning, fun t ht ↦ ?_⟩
    have hcounted := (hi.late (.inr (hi.woken (.inr hrunning)))).2 t ht
    exact (Phase.isCounted_iff.mp hcounted).resolve_right (hunready t)

end AxiomApps.Run.ChildStart
