import AxiomApps.Lib.Execution
import Mathlib.Data.List.Perm.Subperm

/-!
# Mail in any order

What is put in is sent as a number of messages, which are delivered in any order. A message
adds to the output of each receiver. Whatever the order, the output of a receiver and what is
still on its way to it make up what was sent to it.
-/

namespace Mail

open EventSystem

theorem eraseIdx_perm {α : Type*} {l : List α} {i : ℕ} {a : α} (h : l[i]? = some a) :
    (a :: l.eraseIdx i).Perm l := by
  obtain ⟨hlt, rfl⟩ := List.getElem?_eq_some_iff.mp h
  exact List.getElem_cons_eraseIdx_perm hlt

structure State (M V O : Type*) where
  inFlight : List M
  out : V → List O

inductive Event (X : Type*)
  | put (x : X)
  | deliver (i : ℕ)
  deriving DecidableEq, Repr

variable {X M V O : Type*}

section System

variable (send : X → List M) (arrive : V → M → List O)

def start : State M V O := ⟨[], fun _ ↦ []⟩

def next (s : State M V O) : Event X → Option (State M V O)
  | .put x => some { s with inFlight := s.inFlight ++ send x }
  | .deliver i =>
      match s.inFlight[i]? with
      | none => none
      | some m => some ⟨s.inFlight.eraseIdx i, fun v ↦ s.out v ++ arrive v m⟩

def puts (tr : List (State M V O × Event X)) : List X :=
  tr.filterMap fun p ↦ match p.2 with
    | .put x => some x
    | .deliver _ => none

/-- What is sent to a receiver when `x` is put in. -/
def mailTo (v : V) (x : X) : List O := (send x).flatMap (arrive v)

end System

variable {send : X → List M} {arrive : V → M → List O} {tr : List (State M V O × Event X)}
  {s s' : State M V O}

theorem out_perm (hexec : Exec (next send arrive) start tr s) (v : V) :
    (s.out v ++ s.inFlight.flatMap (arrive v)).Perm
      ((puts tr).flatMap (mailTo send arrive v)) := by
  induction hexec with
  | nil => exact .nil
  | @snoc tr s s' e _ hnext ih =>
      cases e with
      | put x =>
          cases hnext
          have hmail := ih.append_right (mailTo send arrive v x)
          simpa [puts, mailTo] using hmail
      | deliver i =>
          simp only [next] at hnext
          split at hnext
          · cases hnext
          · next m hi =>
              cases hnext
              have hflight := (eraseIdx_perm hi).flatMap_right (arrive v)
              rw [List.flatMap_cons] at hflight
              have hout := (hflight.append_left (s.out v)).trans ih
              simpa [puts] using hout

theorem out_subperm (hexec : Exec (next send arrive) start tr s) (v : V) :
    (s.out v).Subperm ((puts tr).flatMap (mailTo send arrive v)) :=
  (List.sublist_append_left ..).subperm.trans (out_perm hexec v).subperm

theorem out_perm_of_quiet (hexec : Exec (next send arrive) start tr s) (hquiet : s.inFlight = [])
    (v : V) : (s.out v).Perm ((puts tr).flatMap (mailTo send arrive v)) := by
  simpa [hquiet] using out_perm hexec v

/-- All that is in flight can be delivered. -/
theorem reaches_quiet (send : X → List M) (arrive : V → M → List O) (s : State M V O) :
    ∃ s', Reaches (next send arrive) (fun _ e ↦ ∃ i, e = .deliver i) s s' ∧ s'.inFlight = [] := by
  induction hm : s.inFlight generalizing s with
  | nil => exact ⟨s, .refl s, hm⟩
  | cons m ms ih =>
      obtain ⟨s', hreach, hquiet⟩ := ih ⟨ms, fun v ↦ s.out v ++ arrive v m⟩ rfl
      refine ⟨s', Reaches.trans (.single (e := .deliver 0) ⟨0, rfl⟩ ?_) hreach, hquiet⟩
      simp [next, hm]

end Mail
