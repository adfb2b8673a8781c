import Mathlib.Data.List.Basic
import Mathlib.Tactic

/-!
# Lines of a stream

A stream is cut after each terminator into complete lines, which end with it, and an open
rest, which has none. A stream that goes on is cut as its open rest and the continuation are.
-/

namespace Lines

variable {α : Type*} [DecidableEq α] (nl : α)

/-- The complete lines and the open rest. -/
def split : List α → List (List α) × List α
  | [] => ([], [])
  | b :: bs =>
      if b = nl then ([b] :: (split bs).1, (split bs).2)
      else match (split bs).1 with
        | [] => ([], b :: (split bs).2)
        | l :: ls => ((b :: l) :: ls, (split bs).2)

def complete (s : List α) : List (List α) := (split nl s).1

def rest (s : List α) : List α := (split nl s).2

/-- All lines; the open rest is one if there is any. -/
def lines (s : List α) : List (List α) :=
  complete nl s ++ if rest nl s = [] then [] else [rest nl s]

variable {nl} {s t l : List α}

@[simp] theorem complete_nil : complete nl ([] : List α) = [] := rfl

@[simp] theorem rest_nil : rest nl ([] : List α) = [] := rfl

theorem split_of_not_mem (h : nl ∉ s) : complete nl s = [] ∧ rest nl s = s := by
  induction s with
  | nil => exact ⟨rfl, rfl⟩
  | cons b s ih =>
      obtain ⟨hb, hs⟩ : nl ≠ b ∧ nl ∉ s := by simpa using h
      obtain ⟨hcomplete, hrest⟩ := ih hs
      simp only [complete, rest] at hcomplete hrest
      simp [complete, rest, split, Ne.symm hb, hcomplete, hrest]

/-- A first line, up to its terminator. -/
theorem split_line (h : nl ∉ l) :
    complete nl (l ++ nl :: t) = (l ++ [nl]) :: complete nl t ∧
      rest nl (l ++ nl :: t) = rest nl t := by
  induction l with
  | nil => simp [complete, rest, split]
  | cons b l ih =>
      obtain ⟨hb, hl⟩ : nl ≠ b ∧ nl ∉ l := by simpa using h
      obtain ⟨hcomplete, hrest⟩ := ih hl
      simp only [complete, rest] at hcomplete hrest
      simp [complete, rest, split, Ne.symm hb, hcomplete, hrest]

/-- A stream is open or begins with a line. -/
theorem cases_line (nl : α) (s : List α) :
    nl ∉ s ∨ ∃ l t, s = l ++ nl :: t ∧ nl ∉ l := by
  by_cases h : nl ∈ s
  · obtain ⟨l, t, rfl, hl⟩ := List.eq_append_cons_of_mem h
    exact .inr ⟨l, t, rfl, hl⟩
  · exact .inl h

omit [DecidableEq α] in
theorem exists_last (h : nl ∈ s) : ∃ l t, s = l ++ nl :: t ∧ nl ∉ t := by
  obtain ⟨t, l, hrev, ht⟩ := List.eq_append_cons_of_mem (List.mem_reverse.mpr h)
  refine ⟨l.reverse, t.reverse, ?_, by simpa using ht⟩
  rw [← List.reverse_reverse s, hrev]
  simp

/-- Induction on the number of lines. -/
theorem line_induction {P : List α → Prop} (nl : α) (hopen : ∀ s, nl ∉ s → P s)
    (hline : ∀ l t, nl ∉ l → P t → P (l ++ nl :: t)) (s : List α) : P s := by
  induction hn : s.length using Nat.strong_induction_on generalizing s with
  | _ n ih =>
      rcases cases_line nl s with h | ⟨l, t, rfl, hl⟩
      · exact hopen s h
      · refine hline l t hl (ih t.length ?_ t rfl)
        simp only [List.length_append, List.length_cons] at hn
        omega

theorem flatten_complete_append (nl : α) (s : List α) :
    (complete nl s).flatten ++ rest nl s = s := by
  induction s using line_induction nl with
  | hopen s h => simp [split_of_not_mem h]
  | hline l t hl ih =>
      obtain ⟨hcomplete, hrest⟩ := split_line (t := t) hl
      rw [hcomplete, hrest, List.flatten_cons, List.append_assoc, ih]
      simp

theorem not_mem_rest (s : List α) : nl ∉ rest nl s := by
  induction s using line_induction nl with
  | hopen s h => rwa [(split_of_not_mem h).2]
  | hline l t hl ih => rwa [(split_line hl).2]

theorem mem_of_mem_complete {l : List α} (h : l ∈ complete nl s) : nl ∈ l := by
  induction s using line_induction nl with
  | hopen s hs => simp [(split_of_not_mem hs).1] at h
  | hline l' t hl' ih =>
      rw [(split_line hl').1] at h
      rcases List.mem_cons.mp h with rfl | h
      · simp
      · exact ih h

theorem split_append (nl : α) (s t : List α) :
    complete nl (s ++ t) = complete nl s ++ complete nl (rest nl s ++ t) ∧
      rest nl (s ++ t) = rest nl (rest nl s ++ t) := by
  induction s using line_induction nl with
  | hopen s h => simp [split_of_not_mem h]
  | hline l u hl ih =>
      obtain ⟨hcomplete, hrest⟩ := split_line (t := u) hl
      obtain ⟨hcomplete', hrest'⟩ := split_line (t := u ++ t) hl
      rw [hcomplete, hrest, List.append_assoc, List.cons_append, hcomplete', hrest']
      exact ⟨by rw [ih.1, List.cons_append], ih.2⟩

/-- A stream whose last terminator is at the end of `s`. -/
theorem split_last (h : nl ∉ t) :
    (complete nl (s ++ nl :: t)).flatten = s ++ [nl] ∧ rest nl (s ++ nl :: t) = t := by
  have hrest : rest nl (s ++ nl :: t) = t := by
    rw [(split_append nl s _).2, (split_line (not_mem_rest s)).2, (split_of_not_mem h).2]
  refine ⟨?_, hrest⟩
  have hall := flatten_complete_append nl (s ++ nl :: t)
  rw [hrest] at hall
  exact List.append_cancel_right (hall.trans (by simp))

/-- Lines written one after the other are read back. -/
theorem lines_flatten_map {ls : List (List α)} (h : ∀ l ∈ ls, nl ∉ l) :
    lines nl (ls.map (· ++ [nl])).flatten = ls.map (· ++ [nl]) := by
  have hsplit : complete nl (ls.map (· ++ [nl])).flatten = ls.map (· ++ [nl]) ∧
      rest nl (ls.map (· ++ [nl])).flatten = [] := by
    induction ls with
    | nil => exact ⟨rfl, rfl⟩
    | cons l ls ih =>
        obtain ⟨hl, hls⟩ := List.forall_mem_cons.mp h
        obtain ⟨hcomplete, hrest⟩ := split_line (t := (ls.map (· ++ [nl])).flatten) hl
        rw [List.map_cons, List.flatten_cons, List.append_assoc, List.singleton_append, hcomplete,
          hrest, (ih hls).1]
        exact ⟨rfl, (ih hls).2⟩
  rw [lines, hsplit.1, hsplit.2, if_pos rfl, List.append_nil]

end Lines
