import AxiomApps.Run.Exit

/-!
# The status a slave reports

`manage_slave_services` waits for its child with `waitpid`, which it asks for stops and
continuations too. The kernel keeps the last change of the child that has not been collected.
Whatever `waitpid` returns ends the loop. Its status is set to 0 if the child was killed by
the signal `termmode` and a `CMD_KILL` has been handled; then the threads are ended and the
status is sent with `CMD_EXIT`.
-/

namespace AxiomApps.Run.ChildStatus

open EventSystem
open Exit (wifsignaled wtermsig reported)

abbrev Sig : Type := {n : ℕ // 0 < n ∧ n < 127}

inductive End
  | exited (code : Fin 256)
  | killed (sig : Sig) (core : Bool)
  deriving DecidableEq, Repr

namespace End

def status : End → ℕ
  | exited code => code * 256
  | killed sig core => sig + if core then 128 else 0

def By (termmode : ℕ) : End → Prop
  | exited _ => False
  | killed sig _ => sig = termmode

instance (termmode : ℕ) : DecidablePred (By termmode)
  | exited _ => inferInstanceAs (Decidable False)
  | killed sig _ => inferInstanceAs (Decidable (sig.val = termmode))

end End

/-- What `waitpid` reports. -/
inductive Change
  | stopped (sig : Sig)
  | continued
  | ended (e : End)
  deriving DecidableEq, Repr

def Change.status : Change → ℕ
  | .stopped sig => sig * 256 + 127
  | .continued => 0xffff
  | .ended e => e.status

inductive Child
  | running
  | stopped
  | ended (e : End)
  deriving DecidableEq, Repr

/-- Where the main program is: in the loop, after it, after the reset of the status, or done. -/
inductive Main
  | waiting
  | collected (status : ℕ)
  | ending (status : ℕ)
  | sent (status : ℕ)
  deriving DecidableEq, Repr

structure State where
  child : Child
  pending : Option Change
  main : Main
  mySigterm : Bool
  deriving DecidableEq, Repr

inductive Event
  | stops (sig : Sig)
  | continues
  | ends (e : End)
  | interrupted
  | collects
  | killReceived
  | resets
  | sends
  deriving DecidableEq, Repr

def init : State := ⟨.running, none, .waiting, false⟩

/-- `recv_thread` on `CMD_KILL`. The signal it sends shows in what the child does. -/
def recvKill (sv : Services) (s : State) : State :=
  if sv.exit || sv.kill then { s with mySigterm := true } else s

def next (sv : Services) (termmode : ℕ) (s : State) : Event → Option State
  | .stops sig =>
      match s.child with
      | .running => some { s with child := .stopped, pending := some (.stopped sig) }
      | _ => none
  | .continues =>
      match s.child with
      | .stopped => some { s with child := .running, pending := some .continued }
      | _ => none
  | .ends e =>
      match s.child with
      | .ended _ => none
      | _ => some { s with child := .ended e, pending := some (.ended e) }
  | .interrupted =>
      match s.main with
      | .waiting => some s
      | _ => none
  | .collects =>
      match s.main, s.pending with
      | .waiting, some change => some { s with main := .collected change.status, pending := none }
      | _, _ => none
  | .killReceived =>
      match s.main with
      | .sent _ => none
      | _ => some (recvKill sv s)
  | .resets =>
      match s.main with
      | .collected status => some { s with main := .ending (reported termmode s.mySigterm status) }
      | _ => none
  | .sends =>
      match s.main with
      | .ending status => some { s with main := .sent status }
      | _ => none

/-- The child has ended by `termmode` and no `CMD_KILL` has been handled, but one would still
be taken for its cause. -/
def Unasked (termmode : ℕ) (s : State) : Prop :=
  (∃ e, s.child = .ended e ∧ e.By termmode) ∧ s.mySigterm = false ∧
    (s.main = .waiting ∨ ∃ status, s.main = .collected status)

/-- `waitpid` returns the end of the child, and no `CMD_KILL` comes too late. -/
def Orderly (sv : Services) (termmode : ℕ) (s : State) : Event → Prop
  | .collects => ∃ e, s.pending = some (.ended e)
  | .killReceived => (sv.exit || sv.kill) = true → ¬ Unasked termmode s
  | _ => True

instance (s : State) : Decidable (∃ e, s.pending = some (.ended e)) :=
  match s.pending with
  | some (.ended e) => isTrue ⟨e, rfl⟩
  | some (.stopped _) | some .continued | none => isFalse (by simp)

instance (termmode : ℕ) (s : State) : Decidable (∃ e, s.child = .ended e ∧ e.By termmode) :=
  match s.child with
  | .ended e => decidable_of_iff (e.By termmode) (by simp)
  | .running | .stopped => isFalse (by simp)

instance (s : State) : Decidable (∃ status, s.main = .collected status) :=
  match s.main with
  | .collected status => isTrue ⟨status, rfl⟩
  | .waiting | .ending _ | .sent _ => isFalse (by simp)

instance (termmode : ℕ) (s : State) : Decidable (Unasked termmode s) :=
  inferInstanceAs (Decidable (_ ∧ _))

instance (sv : Services) (termmode : ℕ) (s : State) (e : Event) :
    Decidable (Orderly sv termmode s e) :=
  match e with
  | .collects => inferInstanceAs (Decidable (∃ e, s.pending = some (.ended e)))
  | .killReceived => inferInstanceAs (Decidable (_ → ¬ Unasked termmode s))
  | .stops _ | .continues | .ends _ | .interrupted | .resets | .sends => isTrue trivial

/-- A `CMD_KILL` was handled before the end of the child. -/
def Killed (sv : Services) (tr : List (State × Event)) : Prop :=
  (sv.exit || sv.kill) = true ∧
    ∃ p ∈ tr, p.2 = .killReceived ∧ ∀ e, p.1.child ≠ .ended e

/-- The status to be sent for an end of the child. -/
def IsReport (sv : Services) (termmode : ℕ) (tr : List (State × Event)) (e : End)
    (status : ℕ) : Prop :=
  (Killed sv tr ∧ e.By termmode → status = 0) ∧ (¬ (Killed sv tr ∧ e.By termmode) →
    status = e.status)

/-! ## One step -/

section Step

variable {sv : Services} {termmode : ℕ} {s s' : State} {e : Event}

/-- All that a step can do. -/
inductive Steps (sv : Services) (termmode : ℕ) (s : State) : Event → State → Prop
  | stops (sig : Sig) (hchild : s.child = .running) :
      Steps sv termmode s (.stops sig)
        { s with child := .stopped, pending := some (.stopped sig) }
  | continues (hchild : s.child = .stopped) :
      Steps sv termmode s .continues { s with child := .running, pending := some .continued }
  | ends (e : End) (hchild : ∀ e', s.child ≠ .ended e') :
      Steps sv termmode s (.ends e) { s with child := .ended e, pending := some (.ended e) }
  | interrupted (hmain : s.main = .waiting) : Steps sv termmode s .interrupted s
  | collects (change : Change) (hmain : s.main = .waiting) (hpending : s.pending = some change) :
      Steps sv termmode s .collects { s with main := .collected change.status, pending := none }
  | killReceived (hmain : ∀ status, s.main ≠ .sent status) :
      Steps sv termmode s .killReceived (recvKill sv s)
  | resets (status : ℕ) (hmain : s.main = .collected status) :
      Steps sv termmode s .resets
        { s with main := .ending (reported termmode s.mySigterm status) }
  | sends (status : ℕ) (hmain : s.main = .ending status) :
      Steps sv termmode s .sends { s with main := .sent status }

theorem next_cases (h : next sv termmode s e = some s') : Steps sv termmode s e s' := by
  obtain ⟨child, pending, main, mySigterm⟩ := s
  cases e with
  | stops sig =>
      cases child <;> cases h
      exact .stops sig rfl
  | continues =>
      cases child <;> cases h
      exact .continues rfl
  | ends e =>
      cases child <;> cases h
      all_goals exact .ends e nofun
  | interrupted =>
      cases main <;> cases h
      exact .interrupted rfl
  | collects =>
      cases main <;> cases pending <;> cases h
      exact .collects _ rfl rfl
  | killReceived =>
      cases main <;> cases h
      all_goals exact .killReceived nofun
  | resets =>
      cases main <;> cases h
      exact .resets _ rfl
  | sends =>
      cases main <;> cases h
      exact .sends _ rfl

end Step

/-! ## The invariant -/

theorem End.reported_status (termmode : ℕ) (mySigterm : Bool) (e : End) :
    (mySigterm = true ∧ e.By termmode → reported termmode mySigterm e.status = 0) ∧
      (¬ (mySigterm = true ∧ e.By termmode) → reported termmode mySigterm e.status = e.status) := by
  cases e with
  | exited code =>
      have hsig : wifsignaled (End.exited code).status = false := by
        simp [wifsignaled, End.status, Nat.mul_mod]
      simp [reported, hsig, End.By]
  | killed sig core =>
      have hmod : (End.killed sig core).status % 128 = sig := by
        have hlt := sig.2.2
        rw [End.status]
        split_ifs <;> omega
      have hsig : wifsignaled (End.killed sig core).status = true := by
        rw [wifsignaled, hmod]
        exact decide_eq_true sig.2
      simp only [reported, hsig, wtermsig, hmod, End.By, true_and]
      exact ⟨fun h ↦ if_pos h, fun h ↦ if_neg h⟩

/-- What holds along an orderly run: what `waitpid` has collected is the end, and once it is
decided the status is the one to be sent. -/
structure Inv (sv : Services) (termmode : ℕ) (tr : List (State × Event)) (s : State) : Prop where
  sigterm_of_killed : Killed sv tr → s.mySigterm = true
  killed_of_sigterm : s.mySigterm = true →
    (s.main = .waiting ∨ ∃ status, s.main = .collected status) →
    (∀ e, s.child = .ended e → e.By termmode) → Killed sv tr
  pending_ended : ∀ e, s.pending = some (.ended e) → s.child = .ended e
  ended_pending : ∀ e, s.child = .ended e → s.main = .waiting → s.pending = some (.ended e)
  collected : ∀ status, s.main = .collected status →
    ∃ e, s.child = .ended e ∧ status = e.status
  ending : ∀ status, s.main = .ending status →
    ∃ e, s.child = .ended e ∧ IsReport sv termmode tr e status
  sent : ∀ status, s.main = .sent status →
    ∃ e, s.child = .ended e ∧ IsReport sv termmode tr e status
  sends_ended : ∀ p ∈ tr, p.2 = .sends → ∃ e, p.1.child = .ended e

section Invariant

variable {sv : Services} {termmode : ℕ} {tr : List (State × Event)} {s s' : State} {e : Event}

theorem inv_init : Inv sv termmode [] init := by
  refine ⟨?_, ?_, ?_, ?_, ?_, ?_, ?_, ?_⟩ <;> simp [init, Killed]

theorem killed_append :
    Killed sv (tr ++ [(s, e)]) ↔ Killed sv tr ∨
      (sv.exit || sv.kill) = true ∧ e = .killReceived ∧ ∀ e', s.child ≠ .ended e' := by
  simp only [Killed, List.mem_append, List.mem_singleton, or_and_right, exists_or,
    exists_eq_left, and_or_left]

/-- A `CMD_KILL` counts only until the child has ended. -/
theorem IsReport.append {e' : End} {status : ℕ} (h : IsReport sv termmode tr e' status)
    (hchild : s.child = .ended e') : IsReport sv termmode (tr ++ [(s, e)]) e' status := by
  have hkilled : Killed sv (tr ++ [(s, e)]) ↔ Killed sv tr := by
    simp [killed_append, hchild]
  rwa [IsReport, hkilled]

namespace Inv

theorem waiting_of_not_ended (hinv : Inv sv termmode tr s) (h : ∀ e', s.child ≠ .ended e') :
    s.main = .waiting := by
  cases hmain : s.main with
  | waiting => rfl
  | collected status =>
      obtain ⟨e', hchild, -⟩ := hinv.collected status hmain
      exact absurd hchild (h e')
  | ending status =>
      obtain ⟨e', hchild, -⟩ := hinv.ending status hmain
      exact absurd hchild (h e')
  | sent status =>
      obtain ⟨e', hchild, -⟩ := hinv.sent status hmain
      exact absurd hchild (h e')

theorem sends_append (hinv : Inv sv termmode tr s)
    (hsends : e = .sends → ∃ e', s.child = .ended e') :
    ∀ p ∈ tr ++ [(s, e)], p.2 = .sends → ∃ e', p.1.child = .ended e' := by
  intro p hp he
  rcases List.mem_append.mp hp with hp | hp
  · exact hinv.sends_ended p hp he
  · obtain rfl := List.mem_singleton.mp hp
    exact hsends he

/-- A step recorded in the trace, before what it does to the state. -/
theorem append (hinv : Inv sv termmode tr s)
    (hkill : Killed sv (tr ++ [(s, e)]) → Killed sv tr)
    (hsends : e = .sends → ∃ e', s.child = .ended e') : Inv sv termmode (tr ++ [(s, e)]) s where
  sigterm_of_killed h := hinv.sigterm_of_killed (hkill h)
  killed_of_sigterm hsig hmain hby :=
    killed_append.mpr (.inl (hinv.killed_of_sigterm hsig hmain hby))
  pending_ended := hinv.pending_ended
  ended_pending := hinv.ended_pending
  collected := hinv.collected
  ending status hmain := by
    obtain ⟨e', hchild, hreport⟩ := hinv.ending status hmain
    exact ⟨e', hchild, hreport.append hchild⟩
  sent status hmain := by
    obtain ⟨e', hchild, hreport⟩ := hinv.sent status hmain
    exact ⟨e', hchild, hreport.append hchild⟩
  sends_ended := hinv.sends_append hsends

/-- A child that has not ended changes. -/
theorem change (hinv : Inv sv termmode tr s) (h : ∀ e', s.child ≠ .ended e') {child : Child}
    {change : Change} (hchange : ∀ e', change = .ended e' ↔ child = .ended e') :
    Inv sv termmode tr { s with child := child, pending := some change } := by
  have hmain := hinv.waiting_of_not_ended h
  refine { sigterm_of_killed := hinv.sigterm_of_killed, killed_of_sigterm := ?_,
           pending_ended := ?_, ended_pending := ?_, collected := ?_, ending := ?_, sent := ?_,
           sends_ended := hinv.sends_ended }
  · intro hsig _ _
    exact hinv.killed_of_sigterm hsig (.inl hmain) fun e' he' ↦ absurd he' (h e')
  · intro e' he'
    exact (hchange e').mp (Option.some.inj he')
  · intro e' he' _
    exact congrArg some ((hchange e').mpr he')
  · simp [hmain]
  · simp [hmain]
  · simp [hmain]

theorem killReceived (hinv : Inv sv termmode tr s)
    (hC : Orderly sv termmode s .killReceived) :
    Inv sv termmode (tr ++ [(s, .killReceived)]) (recvKill sv s) := by
  rw [recvKill]
  split_ifs with hsv
  · -- the step counts as a kill unless the child has ended, and then `hC` applies
    have hrecorded : ∀ e', s.child = .ended e' →
        Inv sv termmode (tr ++ [(s, .killReceived)]) s := by
      intro e' hchild
      refine hinv.append (fun h ↦ ?_) nofun
      simpa [killed_append, hchild] using h
    refine { sigterm_of_killed := fun _ ↦ rfl, killed_of_sigterm := ?_,
             pending_ended := hinv.pending_ended, ended_pending := hinv.ended_pending,
             collected := hinv.collected, ending := ?_, sent := ?_,
             sends_ended := hinv.sends_append nofun }
    · intro _ hmain hby
      rw [killed_append]
      by_cases hended : ∃ e', s.child = .ended e'
      · obtain ⟨e', hchild⟩ := hended
        cases hsig : s.mySigterm with
        | true => exact .inl (hinv.killed_of_sigterm hsig hmain hby)
        | false => exact absurd ⟨⟨e', hchild, hby e' hchild⟩, hsig, hmain⟩ (hC hsv)
      · exact .inr ⟨hsv, rfl, fun e' hchild ↦ hended ⟨e', hchild⟩⟩
    · intro status hmain
      obtain ⟨e', hchild, -⟩ := hinv.ending status hmain
      exact (hrecorded e' hchild).ending status hmain
    · intro status hmain
      obtain ⟨e', hchild, -⟩ := hinv.sent status hmain
      exact (hrecorded e' hchild).sent status hmain
  · refine hinv.append (fun h ↦ ?_) nofun
    simpa [killed_append, hsv] using h

/-- The decision about the status. -/
theorem resets (hinv : Inv sv termmode tr s) {status : ℕ} (hmain : s.main = .collected status) :
    Inv sv termmode tr { s with main := .ending (reported termmode s.mySigterm status) } := by
  obtain ⟨e', hchild, rfl⟩ := hinv.collected status hmain
  have hkilled : Killed sv tr ∧ e'.By termmode ↔ s.mySigterm = true ∧ e'.By termmode := by
    constructor
    · rintro ⟨hkilled, hby⟩
      exact ⟨hinv.sigterm_of_killed hkilled, hby⟩
    · rintro ⟨hsig, hby⟩
      refine ⟨hinv.killed_of_sigterm hsig (.inr ⟨_, hmain⟩) fun e hended ↦ ?_, hby⟩
      obtain rfl : e' = e := by simpa [hchild] using hended
      exact hby
  refine { sigterm_of_killed := hinv.sigterm_of_killed, killed_of_sigterm := by simp,
           pending_ended := hinv.pending_ended, ended_pending := by simp, collected := by simp,
           ending := ?_, sent := by simp, sends_ended := hinv.sends_ended }
  rintro _ ⟨⟩
  refine ⟨e', hchild, ?_⟩
  rw [IsReport, hkilled]
  exact End.reported_status termmode s.mySigterm e'

end Inv

theorem inv_step (hinv : Inv sv termmode tr s) (hC : Orderly sv termmode s e)
    (hnext : next sv termmode s e = some s') : Inv sv termmode (tr ++ [(s, e)]) s' := by
  have hrecorded : e ≠ .killReceived → (e = .sends → ∃ e', s.child = .ended e') →
      Inv sv termmode (tr ++ [(s, e)]) s :=
    fun hne ↦ hinv.append fun h ↦ by simpa [killed_append, hne] using h
  cases next_cases hnext with
  | stops sig hchild => exact (hrecorded nofun nofun).change (by simp [hchild]) (by simp)
  | continues hchild => exact (hrecorded nofun nofun).change (by simp [hchild]) (by simp)
  | ends e' hchild => exact (hrecorded nofun nofun).change hchild (by simp)
  | interrupted hmain => exact hrecorded nofun nofun
  | collects change hmain hpending =>
      have hinv' := hrecorded nofun nofun
      obtain ⟨e', he'⟩ := hC
      obtain rfl : change = .ended e' := Option.some.inj (hpending.symm.trans he')
      have hchild := hinv.pending_ended e' he'
      refine { sigterm_of_killed := hinv'.sigterm_of_killed, killed_of_sigterm := ?_,
               pending_ended := by simp, ended_pending := by simp, collected := ?_,
               ending := by simp, sent := by simp, sends_ended := hinv'.sends_ended }
      · intro hsig _ hby
        exact hinv'.killed_of_sigterm hsig (.inl hmain) hby
      · rintro _ ⟨⟩
        exact ⟨e', hchild, rfl⟩
  | killReceived hmain => exact hinv.killReceived hC
  | resets status hmain => exact (hrecorded nofun nofun).resets hmain
  | sends status hmain =>
      obtain ⟨e', hchild, hreport⟩ := hinv.ending status hmain
      have hinv' := hrecorded nofun fun _ ↦ ⟨e', hchild⟩
      refine { sigterm_of_killed := hinv'.sigterm_of_killed, killed_of_sigterm := by simp,
               pending_ended := hinv'.pending_ended, ended_pending := by simp,
               collected := by simp, ending := by simp, sent := ?_,
               sends_ended := hinv'.sends_ended }
      rintro _ ⟨⟩
      exact ⟨e', hchild, hreport.append hchild⟩

theorem inv_of_exec (h : Exec (next sv termmode) init tr s)
    (hC : Meets (Orderly sv termmode) tr) : Inv sv termmode tr s :=
  h.trace_invariant inv_init (fun _ _ _ _ hinv he hnext ↦ inv_step hinv he hnext) hC

end Invariant

/-! ## The report -/

section Report

variable {sv : Services} {termmode : ℕ} {tr : List (State × Event)} {s : State}

theorem reaches_sent_of_ending {status : ℕ} (hmain : s.main = .ending status) :
    ∃ t, Reaches (next sv termmode) (Orderly sv termmode) s t ∧ t.main = .sent status :=
  ⟨{ s with main := .sent status }, .single (e := .sends) trivial (by simp [next, hmain]), rfl⟩

theorem reaches_sent_of_collected {status : ℕ} (hmain : s.main = .collected status) :
    ∃ t status', Reaches (next sv termmode) (Orderly sv termmode) s t ∧
      t.main = .sent status' := by
  obtain ⟨t, hreach, ht⟩ : ∃ t, Reaches (next sv termmode) (Orderly sv termmode)
      { s with main := .ending (reported termmode s.mySigterm status) } t ∧
        t.main = .sent (reported termmode s.mySigterm status) := reaches_sent_of_ending rfl
  have hstep : next sv termmode s .resets =
      some { s with main := .ending (reported termmode s.mySigterm status) } := by
    simp [next, hmain]
  exact ⟨t, _, (Reaches.single (by trivial) hstep).trans hreach, ht⟩

/-- Once the child has ended a status can be sent. -/
theorem reaches_sent (hinv : Inv sv termmode tr s) {e : End} (hchild : s.child = .ended e) :
    ∃ t status, Reaches (next sv termmode) (Orderly sv termmode) s t ∧ t.main = .sent status := by
  cases hmain : s.main with
  | waiting =>
      have hpending := hinv.ended_pending e hchild hmain
      obtain ⟨t, status, hreach, ht⟩ : ∃ t status, Reaches (next sv termmode)
          (Orderly sv termmode) { s with main := .collected e.status, pending := none } t ∧
            t.main = .sent status := reaches_sent_of_collected rfl
      have hstep : next sv termmode s .collects =
          some { s with main := .collected e.status, pending := none } := by
        simp [next, hmain, hpending, Change.status]
      exact ⟨t, status, (Reaches.single ⟨e, hpending⟩ hstep).trans hreach, ht⟩
  | collected status => exact reaches_sent_of_collected hmain
  | ending status =>
      obtain ⟨t, hreach, ht⟩ := reaches_sent_of_ending hmain
      exact ⟨t, status, hreach, ht⟩
  | sent status => exact ⟨s, status, .refl s, hmain⟩

/-- If `waitpid` never returns a stop or a continuation and no `CMD_KILL` is handled between
an end by `termmode` it did not cause and the reset of the status, then `CMD_EXIT` is sent
after the end of the child, with its status, or with 0 if a `CMD_KILL` came before an end by
`termmode`; and when the child has ended it can be sent. -/
theorem child_end_reported (sv : Services) (termmode : ℕ) {tr : List (State × Event)} {s : State}
    (h : Exec (next sv termmode) init tr s) (hC : Meets (Orderly sv termmode) tr) :
    (∀ p ∈ tr, p.2 = .sends → ∃ e, p.1.child = .ended e) ∧
      (∀ status, s.main = .sent status →
        ∃ e, s.child = .ended e ∧ IsReport sv termmode tr e status) ∧
      ((∃ e, s.child = .ended e) →
        ∃ t status, Reaches (next sv termmode) (Orderly sv termmode) s t ∧
          t.main = .sent status) := by
  have hinv := inv_of_exec h hC
  refine ⟨hinv.sends_ended, hinv.sent, ?_⟩
  rintro ⟨e, hchild⟩
  exact reaches_sent hinv hchild

end Report

def sigterm : Sig := ⟨15, by decide⟩

def sigstop : Sig := ⟨19, by decide⟩

/-- The child dies of the signal a `CMD_KILL` has sent. -/
theorem child_end_reported_kill :
    ∃ tr s, Exec (next (.ofOptions [.exit]) 15) init tr s ∧
      Meets (Orderly (.ofOptions [.exit]) 15) tr ∧ s.main = .sent 0 ∧
      ∃ e, s.child = .ended e ∧ IsReport (.ofOptions [.exit]) 15 tr e 0 := by
  obtain ⟨tr, s, hexec, hC, hsent⟩ : ∃ tr s, Exec (next (.ofOptions [.exit]) 15) init tr s ∧
      Meets (Orderly (.ofOptions [.exit]) 15) tr ∧ s.main = .sent 0 :=
    Exec.exists_of_run [.killReceived, .ends (.killed sigterm false), .interrupted, .collects,
      .resets, .sends] (by decide)
  exact ⟨tr, s, hexec, hC, hsent, (child_end_reported _ 15 hexec hC).2.1 0 hsent⟩

/-- The child is stopped, and `CMD_EXIT` is sent with the status of the stop. It dies of a
signal of its own, and the status is lost to a `CMD_KILL` that comes later. -/
theorem child_end_misreported :
    (∃ tr s, Exec (next (.ofOptions [.exit]) 15) init tr s ∧ s.main = .sent (19 * 256 + 127) ∧
      s.child = .stopped) ∧
    ∃ tr s, Exec (next (.ofOptions [.exit]) 15) init tr s ∧ s.main = .sent 0 ∧
      s.child = .ended (.killed sigterm false) ∧ ¬ Killed (.ofOptions [.exit]) tr := by
  constructor
  · exact ⟨_, _, Exec.of_run (show Exec.run (next (.ofOptions [.exit]) 15) init
      [.stops sigstop, .collects, .resets, .sends] = some _ from rfl), rfl, rfl⟩
  · refine ⟨_, _, Exec.of_run (show Exec.run (next (.ofOptions [.exit]) 15) init
      [.ends (.killed sigterm false), .collects, .killReceived, .resets, .sends] =
        some _ from rfl), rfl, rfl, ?_⟩
    rintro ⟨-, p, hp, hkill, hchild⟩
    fin_cases hp <;> cases hkill
    exact hchild _ rfl

end AxiomApps.Run.ChildStatus
