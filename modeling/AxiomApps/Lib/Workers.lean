import AxiomApps.Lib.Threads
import Mathlib.Algebra.BigOperators.Group.Finset.Piecewise

/-!
# Workers on one queue

Clients send their messages, each in its own order, into one queue. Workers take messages
from the queue, one at a time, and handle them one after another against a state kept for the
client. One worker handles the messages of a client in the order in which they were sent. Two
workers need not.
-/

namespace Workers

open EventSystem
open Threads (entriesOf)

structure State (T V M σ : Type*) where
  served : V → σ
  unsent : V → List M
  queue : List (V × M)
  hand : T → Option (V × M)

/-- `Z` stands for what the handling of a message may depend on besides. -/
inductive Event (T V Z : Type*)
  | send (v : V)
  | take (t : T)
  | handle (t : T) (z : Z)
  deriving DecidableEq, Repr

variable {T V M Z σ ρ : Type*} [DecidableEq T] [DecidableEq V]

section System

variable (f : σ → M → Z → σ × List ρ)

def start (s₀ : V → σ) (scripts : V → List M) : State T V M σ :=
  ⟨s₀, scripts, [], fun _ ↦ none⟩

def next (s : State T V M σ) : Event T V Z → Option (State T V M σ)
  | .send v =>
      match s.unsent v with
      | [] => none
      | m :: ms => some { s with unsent := Function.update s.unsent v ms
                                 queue := s.queue ++ [(v, m)] }
  | .take t =>
      match s.hand t, s.queue with
      | none, p :: ps => some { s with queue := ps, hand := Function.update s.hand t (some p) }
      | _, _ => none
  | .handle t z =>
      match s.hand t with
      | none => none
      | some p => some { s with
          served := Function.update s.served p.1 (f (s.served p.1) p.2 z).1
          hand := Function.update s.hand t none }

/-- The messages an event handles, each with its client. -/
def handled (s : State T V M σ) : Event T V Z → List (V × (M × Z))
  | .handle t z => (s.hand t).toList.map fun p ↦ (p.1, (p.2, z))
  | _ => []

/-- The replies an event sends, each with its client. -/
def replied (s : State T V M σ) : Event T V Z → List (V × ρ)
  | .handle t z => (s.hand t).toList.flatMap fun p ↦
      (f (s.served p.1) p.2 z).2.map (Prod.mk p.1)
  | _ => []

def handledOf (v : V) (tr : List (State T V M σ × Event T V Z)) : List (M × Z) :=
  entriesOf v (tr.flatMap fun p ↦ handled p.1 p.2)

def repliesTo (v : V) (tr : List (State T V M σ × Event T V Z)) : List ρ :=
  entriesOf v (tr.flatMap fun p ↦ replied f p.1 p.2)

/-- What comes of a list of messages of one client. -/
def serve : σ → List (M × Z) → σ × List ρ
  | c, [] => (c, [])
  | c, p :: ps =>
      let r := f c p.1 p.2
      ((serve r.1 ps).1, r.2 ++ (serve r.1 ps).2)

end System

variable {f : σ → M → Z → σ × List ρ} {s₀ : V → σ} {scripts : V → List M}
  {tr : List (State T V M σ × Event T V Z)} {s s' : State T V M σ} {e : Event T V Z} {v : V}

theorem serve_append (f : σ → M → Z → σ × List ρ) (c : σ) (ps qs : List (M × Z)) :
    serve f c (ps ++ qs) =
      ((serve f (serve f c ps).1 qs).1, (serve f c ps).2 ++ (serve f (serve f c ps).1 qs).2) := by
  induction ps generalizing c with
  | nil => rfl
  | cons p ps ih => simp [serve, ih]

omit [DecidableEq T] in
theorem handledOf_snoc (v : V) (tr : List (State T V M σ × Event T V Z)) (s : State T V M σ)
    (e : Event T V Z) :
    handledOf v (tr ++ [(s, e)]) = handledOf v tr ++ entriesOf v (handled s e) := by
  simp [handledOf]

omit [DecidableEq T] in
theorem repliesTo_snoc (v : V) (tr : List (State T V M σ × Event T V Z)) (s : State T V M σ)
    (e : Event T V Z) :
    repliesTo f v (tr ++ [(s, e)]) = repliesTo f v tr ++ entriesOf v (replied f s e) := by
  simp [repliesTo]

theorem next_send {m : M} {ms : List M} (h : s.unsent v = m :: ms) :
    next f s (.send v) = some { s with unsent := Function.update s.unsent v ms
                                       queue := s.queue ++ [(v, m)] } := by
  simp [next, h]

theorem next_take {t : T} {p : V × M} {ps : List (V × M)} (hhand : s.hand t = none)
    (hqueue : s.queue = p :: ps) :
    next f s (.take t) = some { s with queue := ps
                                       hand := Function.update s.hand t (some p) } := by
  simp [next, hhand, hqueue]

theorem next_handle {t : T} {p : V × M} (h : s.hand t = some p) (z : Z) :
    next f s (.handle t z) = some { s with
      served := Function.update s.served p.1 (f (s.served p.1) p.2 z).1
      hand := Function.update s.hand t none } := by
  simp [next, h]

/-- What a step can do. -/
theorem next_cases (h : next f s e = some s') :
    (∃ v m ms, e = .send v ∧ s.unsent v = m :: ms ∧
      s' = { s with unsent := Function.update s.unsent v ms, queue := s.queue ++ [(v, m)] }) ∨
    (∃ t p ps, e = .take t ∧ s.hand t = none ∧ s.queue = p :: ps ∧
      s' = { s with queue := ps, hand := Function.update s.hand t (some p) }) ∨
    (∃ t z p, e = .handle t z ∧ s.hand t = some p ∧
      s' = { s with served := Function.update s.served p.1 (f (s.served p.1) p.2 z).1
                    hand := Function.update s.hand t none }) := by
  cases e with
  | send v =>
      simp only [next] at h
      split at h
      · cases h
      · next m ms hunsent => exact .inl ⟨v, m, ms, rfl, hunsent, (Option.some.inj h).symm⟩
  | take t =>
      simp only [next] at h
      split at h
      · next p ps hhand hqueue =>
          exact .inr (.inl ⟨t, p, ps, rfl, hhand, hqueue, (Option.some.inj h).symm⟩)
      · cases h
  | handle t z =>
      simp only [next] at h
      split at h
      · cases h
      · next p hhand => exact .inr (.inr ⟨t, z, p, rfl, hhand, (Option.some.inj h).symm⟩)

/-- The state kept for a client and the replies to it are those of the messages handled, in
the order in which they were handled. -/
theorem serve_handledOf (hexec : Exec (next f) (start s₀ scripts) tr s) (v : V) :
    serve f (s₀ v) (handledOf v tr) = (s.served v, repliesTo f v tr) := by
  induction hexec with
  | nil => rfl
  | @snoc tr s s' e _ hnext ih =>
      rw [handledOf_snoc, repliesTo_snoc, serve_append, ih]
      obtain ⟨u, m, ms, rfl, -, rfl⟩ | ⟨t, p, ps, rfl, -, -, rfl⟩ | ⟨t, z, p, rfl, hhand, rfl⟩ :=
        next_cases hnext
      · simp [handled, replied, entriesOf, serve]
      · simp [handled, replied, entriesOf, serve]
      · by_cases hv : p.1 = v
        · subst hv
          simp [handled, replied, hhand, entriesOf, serve, List.filter_map, Function.comp_def]
        · simp [handled, replied, hhand, entriesOf, serve, List.filter_map, Function.comp_def, hv,
            Ne.symm hv]

theorem repliesTo_eq (hexec : Exec (next f) (start s₀ scripts) tr s) (v : V) :
    repliesTo f v tr = (serve f (s₀ v) (handledOf v tr)).2 := by
  rw [serve_handledOf hexec]

/-- One worker keeps the order of each client's messages. -/
theorem handledOf_append [Subsingleton T] (hexec : Exec (next f) (start s₀ scripts) tr s) (v : V)
    (t : T) : (handledOf v tr).map Prod.fst ++ entriesOf v (s.hand t).toList ++
      entriesOf v s.queue ++ s.unsent v = scripts v := by
  induction hexec with
  | nil => simp [handledOf, start, entriesOf]
  | @snoc tr s s' e _ hnext ih =>
      rw [← ih, handledOf_snoc]
      obtain ⟨u, m, ms, rfl, hunsent, rfl⟩ | ⟨w, p, ps, rfl, hhand, hqueue, rfl⟩ |
        ⟨w, z, p, rfl, hhand, rfl⟩ := next_cases hnext
      · by_cases hu : u = v
        · subst hu
          simp [handled, entriesOf, hunsent]
        · simp [handled, entriesOf, hu, Ne.symm hu]
      · obtain rfl := Subsingleton.elim w t
        have hqueue' : entriesOf v s.queue = entriesOf v [p] ++ entriesOf v ps := by
          rw [hqueue, ← List.singleton_append, Threads.entriesOf_append]
        rw [hqueue']
        simp [handled, hhand, entriesOf]
      · obtain rfl := Subsingleton.elim w t
        by_cases hp : p.1 = v
        · simp [handled, hhand, entriesOf, hp]
        · simp [handled, hhand, entriesOf, hp]

/-- When nothing can happen any more, every message has been handled. -/
theorem eq_of_stuck [Nonempty T] [Nonempty Z] (hstuck : ∀ e : Event T V Z, next f s e = none) :
    (∀ v, s.unsent v = []) ∧ s.queue = [] ∧ ∀ t, s.hand t = none := by
  obtain ⟨z⟩ := ‹Nonempty Z›
  obtain ⟨t⟩ := ‹Nonempty T›
  have hhand : ∀ t, s.hand t = none := by
    intro t
    have h := hstuck (.handle t z)
    simp only [next] at h
    split at h
    · assumption
    · cases h
  refine ⟨fun v ↦ ?_, ?_, hhand⟩
  · have h := hstuck (.send v)
    simp only [next] at h
    split at h
    · assumption
    · cases h
  · have h := hstuck (.take t)
    simp only [next, hhand] at h
    split at h
    · cases h
    · next hqueue =>
        cases hs : s.queue with
        | nil => rfl
        | cons p ps => exact absurd hs (hqueue p ps rfl)

theorem next_eq_none (hunsent : ∀ v, s.unsent v = []) (hqueue : s.queue = [])
    (hhand : ∀ t, s.hand t = none) (e : Event T V Z) : next f s e = none := by
  cases e with
  | send v => simp [next, hunsent v]
  | take t => simp [next, hqueue]
  | handle t z => simp [next, hhand t]

/-! ## Length of runs -/

section Length

variable [Fintype T] [Fintype V]

/-- The steps that are left: each message is sent, taken and handled. -/
def left (s : State T V M σ) : ℕ :=
  3 * ∑ v, (s.unsent v).length + 2 * s.queue.length + ∑ t, (s.hand t).toList.length

theorem sum_update {ι α : Type*} [DecidableEq ι] [Fintype ι] (g : α → ℕ) (h : ι → α) (i : ι)
    (x : α) : ∑ j, g (Function.update h i x j) + g (h i) = ∑ j, g (h j) + g x := by
  have hcomp : ∀ j, g (Function.update h i x j) = Function.update (fun j ↦ g (h j)) i (g x) j :=
    fun j ↦ Function.apply_update (fun _ ↦ g) h i x j
  simp only [hcomp]
  rw [Finset.sum_update_of_mem (Finset.mem_univ i),
    ← Finset.add_sum_erase _ (fun j ↦ g (h j)) (Finset.mem_univ i), Finset.erase_eq]
  omega

theorem left_next (h : next f s e = some s') : left s' + 1 = left s := by
  obtain ⟨v, m, ms, rfl, hunsent, rfl⟩ | ⟨t, p, ps, rfl, hhand, hqueue, rfl⟩ |
    ⟨t, z, p, rfl, hhand, rfl⟩ := next_cases h
  · have hsum := sum_update List.length s.unsent v ms
    simp only [hunsent, List.length_cons] at hsum
    simp only [left, List.length_append, List.length_singleton]
    omega
  · have hsum := sum_update (fun o ↦ (Option.toList o).length) s.hand t (some p)
    simp only [hhand, Option.toList_none, Option.toList_some, List.length_nil,
      List.length_singleton] at hsum
    simp only [left, hqueue, List.length_cons]
    omega
  · have hsum := sum_update (fun o ↦ (Option.toList o).length) s.hand t none
    simp only [hhand, Option.toList_none, Option.toList_some, List.length_nil,
      List.length_singleton] at hsum
    simp only [left]
    omega

theorem length_add_left (hexec : Exec (next f) (start s₀ scripts) tr s) :
    tr.length + left s = 3 * ∑ v, (scripts v).length := by
  induction hexec with
  | nil => simp [left, start]
  | snoc _ hnext ih =>
      have hleft := left_next hnext
      rw [List.length_append, List.length_singleton]
      omega

end Length

/-! ## Overtaking -/

/-- Of two workers one can handle a client's second message before the other handles the
first. -/
theorem exists_overtaking [Nontrivial T] (f : σ → M → Z → σ × List ρ) (s₀ : V → σ)
    (scripts : V → List M) {m m' : M} {ms : List M} (hv : scripts v = m :: m' :: ms) (z : Z) :
    ∃ tr s, Exec (next f) (start s₀ scripts : State T V M σ) tr s ∧
      handledOf v tr = [(m', z)] := by
  obtain ⟨a, b, hab⟩ := exists_pair_ne T
  have h₁ : Exec (next f) (start s₀ scripts : State T V M σ) _ _ := .snoc .nil (next_send hv)
  have h₂ := h₁.snoc (next_send (Function.update_self ..))
  have h₃ := h₂.snoc (next_take (t := a) rfl rfl)
  have h₄ := h₃.snoc (next_take (t := b) (Function.update_of_ne hab.symm ..) rfl)
  have h₅ := h₄.snoc (next_handle (Function.update_self ..) z)
  refine ⟨_, _, h₅, ?_⟩
  simp [handledOf, handled, entriesOf]

end Workers
