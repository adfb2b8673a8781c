import Mathlib.Logic.Relation
import Mathlib.Data.List.Basic
import Mathlib.Tactic

/-!
# Executions of event-driven systems

A system is a partial function taking a state and an event to the next state. An
execution records, for every event, the state in which it happened, so that
conditions on steps and statements about whole runs can both be read off the
trace.
-/

namespace EventSystem

variable {σ ε : Type*}

/-- `Exec next s₀ tr s`: the events of `tr`, each paired with the state it
happened in, lead from `s₀` to `s`. -/
inductive Exec (next : σ → ε → Option σ) (s₀ : σ) : List (σ × ε) → σ → Prop
  | nil : Exec next s₀ [] s₀
  | snoc {tr : List (σ × ε)} {s s' : σ} {e : ε} :
      Exec next s₀ tr s → next s e = some s' → Exec next s₀ (tr ++ [(s, e)]) s'

/-- Every step of the trace meets the condition `C` on the state before it and
its event. -/
def Meets (C : σ → ε → Prop) (tr : List (σ × ε)) : Prop :=
  ∀ p ∈ tr, C p.1 p.2

variable {next : σ → ε → Option σ} {C : σ → ε → Prop} {s₀ s : σ} {tr : List (σ × ε)}

@[simp] theorem meets_nil : Meets C ([] : List (σ × ε)) := by
  simp [Meets]

@[simp] theorem meets_append {tr₁ tr₂ : List (σ × ε)} :
    Meets C (tr₁ ++ tr₂) ↔ Meets C tr₁ ∧ Meets C tr₂ := by
  simp only [Meets, List.mem_append, or_imp, forall_and]

@[simp] theorem meets_singleton {p : σ × ε} : Meets C [p] ↔ C p.1 p.2 := by
  simp [Meets]

theorem Meets.mono {C' : σ → ε → Prop} (hC : ∀ s e, C s e → C' s e)
    (h : Meets C tr) : Meets C' tr :=
  fun p hp ↦ hC p.1 p.2 (h p hp)

namespace Exec

/-- An invariant of the trace and the state reached, preserved by every step that
meets the condition, holds of every execution whose steps all meet it. -/
theorem trace_invariant {I : List (σ × ε) → σ → Prop} (hinit : I [] s₀)
    (hstep : ∀ tr s e s', I tr s → C s e → next s e = some s' → I (tr ++ [(s, e)]) s')
    (h : Exec next s₀ tr s) (hC : Meets C tr) : I tr s := by
  induction h with
  | nil => exact hinit
  | snoc _ hnext ih =>
      obtain ⟨htr, he⟩ := meets_append.mp hC
      exact hstep _ _ _ _ (ih htr) (meets_singleton.mp he) hnext

theorem invariant {I : σ → Prop} (hinit : I s₀)
    (hstep : ∀ s e s', I s → C s e → next s e = some s' → I s')
    (h : Exec next s₀ tr s) (hC : Meets C tr) : I s :=
  trace_invariant (I := fun _ s ↦ I s) hinit (fun _ s e s' ↦ hstep s e s') h hC

theorem trans {tr' : List (σ × ε)} {t : σ} (h : Exec next s₀ tr s)
    (h' : Exec next s tr' t) : Exec next s₀ (tr ++ tr') t := by
  induction h' with
  | nil => simpa using h
  | snoc _ hnext ih =>
      rw [← List.append_assoc]
      exact .snoc ih hnext

def run (next : σ → ε → Option σ) : σ → List ε → Option (List (σ × ε) × σ)
  | s, [] => some ([], s)
  | s, e :: es => (next s e).bind fun s' ↦
      (run next s' es).map fun r ↦ ((s, e) :: r.1, r.2)

theorem of_run {es : List ε} (h : run next s₀ es = some (tr, s)) : Exec next s₀ tr s := by
  induction es generalizing s₀ tr with
  | nil =>
      obtain ⟨rfl, rfl⟩ : [] = tr ∧ s₀ = s := by simpa [run] using h
      exact .nil
  | cons e es ih =>
      simp only [run, Option.bind_eq_some_iff, Option.map_eq_some_iff, Prod.exists,
        Prod.mk.injEq] at h
      obtain ⟨s', hs', tr', t, hrun, rfl, rfl⟩ := h
      exact trans (.snoc .nil hs') (ih hrun)

theorem meets_of_run {P : ε → Prop} {es : List ε} (h : run next s₀ es = some (tr, s))
    (hP : ∀ e ∈ es, P e) : Meets (fun _ e ↦ P e) tr := by
  induction es generalizing s₀ tr with
  | nil =>
      obtain ⟨rfl, rfl⟩ : [] = tr ∧ s₀ = s := by simpa [run] using h
      exact meets_nil
  | cons e es ih =>
      obtain ⟨he, hes⟩ := List.forall_mem_cons.mp hP
      simp only [run, Option.bind_eq_some_iff, Option.map_eq_some_iff, Prod.exists,
        Prod.mk.injEq] at h
      obtain ⟨s', -, tr', t, hrun, rfl, rfl⟩ := h
      exact List.forall_mem_cons.mpr ⟨he, ih hrun hes⟩

/-- A list of events that runs, keeps to a condition and has a decidable property is an
execution with that property. -/
theorem exists_of_run [∀ s e, Decidable (C s e)] {P : List (σ × ε) → σ → Prop}
    [∀ tr s, Decidable (P tr s)] (es : List ε)
    (h : (run next s₀ es).any (fun r ↦ r.1.all (fun p ↦ C p.1 p.2) && P r.1 r.2) = true) :
    ∃ tr s, Exec next s₀ tr s ∧ Meets C tr ∧ P tr s := by
  obtain ⟨⟨tr, s⟩, hrun, hr⟩ := (Option.any_eq_true _ _).mp h
  obtain ⟨htr, hs⟩ := Bool.and_eq_true_iff.mp hr
  refine ⟨tr, s, of_run hrun, fun p hp ↦ ?_, of_decide_eq_true hs⟩
  exact of_decide_eq_true (List.all_eq_true.mp htr p hp)

/-- When a measure drops along every step that meets the condition, some execution
goes on until no such step is left. -/
theorem exists_maximal (μ : σ → ℕ)
    (hdec : ∀ s e s', C s e → next s e = some s' → μ s' < μ s) (s₀ : σ) :
    ∃ tr s, Exec next s₀ tr s ∧ Meets C tr ∧ ∀ e s', C s e → next s e ≠ some s' := by
  induction hμ : μ s₀ using Nat.strong_induction_on generalizing s₀ with
  | _ n ih =>
      by_cases hstuck : ∀ e s', C s₀ e → next s₀ e ≠ some s'
      · exact ⟨[], s₀, .nil, meets_nil, hstuck⟩
      · push Not at hstuck
        obtain ⟨e, s', he, hs'⟩ := hstuck
        obtain ⟨tr, t, hexec, htr, ht⟩ := ih (μ s') (hμ ▸ hdec _ _ _ he hs') s' rfl
        exact ⟨[(s₀, e)] ++ tr, t, trans (.snoc .nil hs') hexec,
          meets_append.mpr ⟨meets_singleton.mpr he, htr⟩, ht⟩

end Exec

/-- Some run whose steps all meet the condition leads from one state to the other. -/
def Reaches (next : σ → ε → Option σ) (C : σ → ε → Prop) (s s' : σ) : Prop :=
  ∃ tr, Exec next s tr s' ∧ Meets C tr

namespace Reaches

variable {s' s'' : σ} {e : ε}

theorem refl (s : σ) : Reaches next C s s :=
  ⟨[], .nil, meets_nil⟩

theorem step (h : Reaches next C s s') (he : C s' e) (hnext : next s' e = some s'') :
    Reaches next C s s'' := by
  obtain ⟨tr, hexec, hC⟩ := h
  exact ⟨tr ++ [(s', e)], hexec.snoc hnext, meets_append.mpr ⟨hC, meets_singleton.mpr he⟩⟩

theorem single (he : C s e) (hnext : next s e = some s') : Reaches next C s s' :=
  (refl s).step he hnext

theorem trans (h : Reaches next C s s') (h' : Reaches next C s' s'') : Reaches next C s s'' := by
  obtain ⟨tr, hexec, hC⟩ := h
  obtain ⟨tr', hexec', hC'⟩ := h'
  exact ⟨tr ++ tr', hexec.trans hexec', meets_append.mpr ⟨hC, hC'⟩⟩

theorem mono {C' : σ → ε → Prop} (hC : ∀ s e, C s e → C' s e) (h : Reaches next C s s') :
    Reaches next C' s s' := by
  obtain ⟨tr, hexec, htr⟩ := h
  exact ⟨tr, hexec, htr.mono hC⟩

/-- If, as long as the goal is not reached, some step lowers a measure and keeps an invariant,
then the goal can be reached. -/
theorem exists_of_progress {I P : σ → Prop} (μ : σ → ℕ)
    (hstep : ∀ s, I s → ¬ P s → ∃ e s', C s e ∧ next s e = some s' ∧ I s' ∧ μ s' < μ s)
    (hs : I s) : ∃ s', Reaches next C s s' ∧ P s' := by
  induction hμ : μ s using Nat.strong_induction_on generalizing s with
  | _ n ih =>
      by_cases hP : P s
      · exact ⟨s, refl s, hP⟩
      · obtain ⟨e, s', he, hnext, hs', hlt⟩ := hstep s hs hP
        obtain ⟨t, ht, hPt⟩ := ih (μ s') (hμ ▸ hlt) hs' rfl
        exact ⟨t, (single he hnext).trans ht, hPt⟩

end Reaches

/-- A map of states under which every step is a step of another system, or no step at all,
takes runs to runs. -/
theorem Exec.reaches_map {τ δ : Type*} {next' : τ → δ → Option τ} {C' : τ → δ → Prop}
    {I : σ → Prop} (f : σ → τ) (hinit : I s₀)
    (hstep : ∀ s e s', I s → C s e → next s e = some s' →
      I s' ∧ (f s' = f s ∨ ∃ e', C' (f s) e' ∧ next' (f s) e' = some (f s')))
    (h : Exec next s₀ tr s) (hC : Meets C tr) : I s ∧ Reaches next' C' (f s₀) (f s) := by
  refine h.invariant (I := fun s ↦ I s ∧ Reaches next' C' (f s₀) (f s)) ⟨hinit, .refl _⟩
    (fun s e s' hs he hnext ↦ ?_) hC
  obtain ⟨hI, hsame | ⟨e', he', hnext'⟩⟩ := hstep s e s' hs.1 he hnext
  · exact ⟨hI, hsame ▸ hs.2⟩
  · exact ⟨hI, hs.2.step he' hnext'⟩

end EventSystem
