import AxiomApps.Lib.Execution
import Mathlib.Data.List.Perm.Subperm

/-!
# Threads over a shared state

A thread takes a step by reading and changing the shared state and its own; the threads'
steps interleave. Two rules carry over from one step to every interleaving: an invariant of
the shared state and of each thread which the other threads' steps leave alone, and the
balance between what the threads take up and what they hand over.
-/

namespace Threads

open EventSystem

variable {T σ ℓ α β : Type*} [DecidableEq T]

structure State (T σ ℓ : Type*) where
  shared : σ
  loc : T → ℓ

/-- A step of one thread; `step` says what an action does to the shared state and to the
thread that takes it. -/
def next (step : α → σ → ℓ → Option (σ × ℓ)) (s : State T σ ℓ) (e : T × α) :
    Option (State T σ ℓ) :=
  (step e.2 s.shared (s.loc e.1)).map fun r ↦ ⟨r.1, Function.update s.loc e.1 r.2⟩

/-- What `f` reads off the steps of a run, each entry with its thread. -/
def log (f : α → σ → ℓ → List β) (tr : List (State T σ ℓ × (T × α))) : List (T × β) :=
  tr.flatMap fun p ↦ (f p.2.2 p.1.shared (p.1.loc p.2.1)).map (Prod.mk p.2.1)

variable {step : α → σ → ℓ → Option (σ × ℓ)} {f taken given : α → σ → ℓ → List β}
  {tr : List (State T σ ℓ × (T × α))} {s s' s₀ : State T σ ℓ} {t : T} {a : α}

theorem next_eq_some (h : next step s (t, a) = some s') :
    ∃ c l, step a s.shared (s.loc t) = some (c, l) ∧ s' = ⟨c, Function.update s.loc t l⟩ := by
  obtain ⟨⟨c, l⟩, hstep, rfl⟩ := Option.map_eq_some_iff.mp h
  exact ⟨c, l, hstep, rfl⟩

omit [DecidableEq T] in
@[simp] theorem log_nil : log f ([] : List (State T σ ℓ × (T × α))) = [] := rfl

omit [DecidableEq T] in
theorem log_snoc : log f (tr ++ [(s, (t, a))]) =
    log f tr ++ (f a s.shared (s.loc t)).map (Prod.mk t) := by
  simp [log]

def entriesOf (t : T) (l : List (T × β)) : List β :=
  (l.filter fun p ↦ p.1 = t).map Prod.snd

@[simp] theorem entriesOf_append (l l' : List (T × β)) :
    entriesOf t (l ++ l') = entriesOf t l ++ entriesOf t l' := by
  simp [entriesOf]

@[simp] theorem entriesOf_self (bs : List β) : entriesOf t (bs.map (Prod.mk t)) = bs := by
  simp [entriesOf, List.filter_map, Function.comp_def]

theorem entriesOf_other {u : T} (hu : t ≠ u) (bs : List β) :
    entriesOf u (bs.map (Prod.mk t)) = [] := by
  simp [entriesOf, List.filter_map, Function.comp_def, hu]

theorem mem_entriesOf {p : T × β} {l : List (T × β)} : p.2 ∈ entriesOf p.1 l ↔ p ∈ l := by
  obtain ⟨t, b⟩ := p
  simp [entriesOf]

theorem count_entriesOf [DecidableEq β] (l : List (T × β)) (b : β) :
    (entriesOf t l).count b = l.count (t, b) := by
  induction l with
  | nil => rfl
  | cons p l ih =>
      obtain ⟨u, c⟩ := p
      by_cases hu : u = t
      · subst hu
        simpa [entriesOf, List.count_cons] using ih
      · simpa [entriesOf, List.count_cons, hu] using ih

/-! ## Invariants

`S` speaks of the shared state and what was logged, `L` of the shared state and one thread.
-/

section Invariant

variable {C : α → Prop} {S : List (T × β) → σ → Prop} {L : σ → ℓ → Prop}

/-- If each step keeps `S` and its own thread's `L`, and keeps every other `L`, both hold in
every run. -/
theorem invariant (hS : S [] s₀.shared) (hL : ∀ t, L s₀.shared (s₀.loc t))
    (hstep : ∀ bs c t l a c' l', C a → S bs c → L c l → step a c l = some (c', l') →
      S (bs ++ (f a c l).map (Prod.mk t)) c' ∧ L c' l' ∧ ∀ m, L c m → L c' m)
    (hexec : Exec (next step) s₀ tr s) (hC : Meets (fun _ e ↦ C e.2) tr) :
    S (log f tr) s.shared ∧ ∀ t, L s.shared (s.loc t) := by
  refine hexec.trace_invariant (I := fun tr s ↦ S (log f tr) s.shared ∧ ∀ t, L s.shared (s.loc t))
    ⟨hS, hL⟩ (fun tr s e s' hI ha hnext ↦ ?_) hC
  obtain ⟨t, a⟩ := e
  obtain ⟨c, l, hc, rfl⟩ := next_eq_some hnext
  obtain ⟨hS', hl, hothers⟩ := hstep _ _ t _ a c l ha hI.1 (hI.2 t) hc
  refine ⟨log_snoc ▸ hS', fun u ↦ ?_⟩
  rcases eq_or_ne u t with rfl | hu
  · simpa using hl
  · simpa [hu] using hothers _ (hI.2 u)

end Invariant

/-! ## Balance

A thread holds `pending` between taking something up and handing it over.
-/

section Balance

variable {pending : ℓ → List β}

/-- The balance of a thread in the runs that keep to a condition. -/
theorem entriesOf_taken_of_meets {C : α → Prop}
    (hbal : ∀ a c l c' l', C a → step a c l = some (c', l') →
      pending l ++ taken a c l = given a c l ++ pending l')
    (hpending : ∀ t, pending (s₀.loc t) = []) (hexec : Exec (next step) s₀ tr s)
    (hC : Meets (fun _ e ↦ C e.2) tr) (t : T) :
    entriesOf t (log taken tr) = entriesOf t (log given tr) ++ pending (s.loc t) := by
  refine hexec.trace_invariant (I := fun tr s ↦ entriesOf t (log taken tr) =
    entriesOf t (log given tr) ++ pending (s.loc t)) ?_ (fun tr s e s' ih ha hnext ↦ ?_) hC
  · simp [entriesOf, hpending]
  · obtain ⟨u, a⟩ := e
    obtain ⟨c, l, hc, rfl⟩ := next_eq_some hnext
    rw [log_snoc, log_snoc, entriesOf_append, entriesOf_append, ih]
    rcases eq_or_ne u t with rfl | hu
    · have hstep := hbal a _ _ c l ha hc
      simp only [entriesOf_self, Function.update_self, List.append_assoc, hstep]
    · simp only [entriesOf_other hu, Function.update_of_ne hu.symm, List.append_nil]

variable (hbal : ∀ a c l c' l', step a c l = some (c', l') →
    pending l ++ taken a c l = given a c l ++ pending l')
  (hpending : ∀ t, pending (s₀.loc t) = [])
  (hexec : Exec (next step) s₀ tr s)

include hbal hpending hexec

theorem entriesOf_taken (t : T) :
    entriesOf t (log taken tr) = entriesOf t (log given tr) ++ pending (s.loc t) :=
  entriesOf_taken_of_meets (C := fun _ ↦ True) (fun a c l c' l' _ ↦ hbal a c l c' l') hpending
    hexec (fun _ _ ↦ trivial) t

/-- What was handed over was taken up, once. -/
theorem given_subperm_taken [DecidableEq β] : (log given tr).Subperm (log taken tr) := by
  refine List.subperm_ext_iff.mpr fun p _ ↦ ?_
  obtain ⟨t, b⟩ := p
  rw [← count_entriesOf, ← count_entriesOf, entriesOf_taken hbal hpending hexec,
    List.count_append]
  exact Nat.le_add_right ..

/-- Once nothing is pending, all that was taken up has been handed over. -/
theorem given_perm_taken [DecidableEq β] (hend : ∀ t, pending (s.loc t) = []) :
    (log given tr).Perm (log taken tr) := by
  refine List.perm_iff_count.mpr fun p ↦ ?_
  obtain ⟨t, b⟩ := p
  rw [← count_entriesOf, ← count_entriesOf, entriesOf_taken hbal hpending hexec, hend t,
    List.append_nil]

end Balance

/-! ## A thread on its own -/

section Solo

variable {C : α → Prop}

def solo (step : α → σ → ℓ → Option (σ × ℓ)) (p : σ × ℓ) (a : α) : Option (σ × ℓ) :=
  step a p.1 p.2

/-- While the others do nothing, a thread runs as it would on its own. -/
theorem reaches_of_solo {p : σ × ℓ}
    (h : Reaches (solo step) (fun _ a ↦ C a) (s.shared, s.loc t) p) :
    Reaches (next step) (fun _ e ↦ C e.2) s ⟨p.1, Function.update s.loc t p.2⟩ := by
  obtain ⟨tr, hexec, hC⟩ := h
  refine hexec.invariant (C := fun _ a ↦ C a) (I := fun p ↦
    Reaches (next step) (fun _ e ↦ C e.2) s ⟨p.1, Function.update s.loc t p.2⟩) ?_
    (fun q a q' hq ha hstep ↦ ?_) hC
  · rw [Function.update_eq_self]
    exact .refl _
  · refine hq.step (e := (t, a)) ha ?_
    have hq' : step a q.1 q.2 = some q' := hstep
    simp [next, hq']

end Solo

end Threads
