import Mathlib.Algebra.Order.Group.Nat
import Mathlib.Tactic

/-!
# Loops over an `int`

`for (int i = 0; i < n; i += step)` with a bound `n` of another type, which the index is compared
with after it has been widened. Where the index leaves the range of an `int` the program has no
meaning any more.
-/

namespace IntLoop

variable {σ : Type*}

/-- The turns from index `i` on. The body says whether to go on, with the state it leaves. None
if the index overflows, or if there are more than `fuel` turns. -/
def turns (step n : ℕ) (body : ℕ → σ → Bool × σ) : ℕ → ℕ → σ → Option σ
  | 0, _, _ => none
  | fuel + 1, i, s =>
      if i < n then
        if (body i s).1 then
          if i + step < 2 ^ 31 then turns step n body fuel (i + step) (body i s).2 else none
        else some (body i s).2
      else some s

def run (step n : ℕ) (body : ℕ → σ → Bool × σ) (s : σ) : Option σ := turns step n body (n + 1) 0 s

variable {step n : ℕ} {body : ℕ → σ → Bool × σ} {s : σ} {I : ℕ → σ → Prop} {Q : σ → Prop}

/-- `I i` holds before the turn of index `i`, `Q` where the body has left the loop. -/
theorem turns_rule (hpos : 0 < step) (hn : n + step ≤ 2 ^ 31)
    (hbody : ∀ i s, i < n → step ∣ i → I i s →
      ((body i s).1 = true ∧ I (i + step) (body i s).2) ∨
        ((body i s).1 = false ∧ Q (body i s).2))
    {fuel i : ℕ} (hfuel : 0 < fuel ∧ n < i + fuel) (hi : step ∣ i) (hlt : i < n + step)
    (h : I i s) :
    ∃ s', turns step n body fuel i s = some s' ∧
      (Q s' ∨ ∃ i, n ≤ i ∧ i < n + step ∧ step ∣ i ∧ I i s') := by
  induction fuel generalizing i s with
  | zero => exact absurd hfuel.1 (lt_irrefl 0)
  | succ fuel ih =>
      rw [turns]
      split
      case isTrue hin =>
        obtain ⟨hgo, hnext⟩ | ⟨hstop, hq⟩ := hbody i s hin hi h
        · rw [if_pos hgo, if_pos (by omega)]
          exact ih (by omega) (hi.add (dvd_refl step)) (by omega) hnext
        · rw [if_neg (by rw [hstop]; exact Bool.false_ne_true)]
          exact ⟨_, rfl, .inl hq⟩
      case isFalse hout => exact ⟨s, rfl, .inr ⟨i, Nat.le_of_not_lt hout, hlt, hi, h⟩⟩

theorem run_rule (hpos : 0 < step) (hn : n + step ≤ 2 ^ 31) (h : I 0 s)
    (hbody : ∀ i s, i < n → step ∣ i → I i s →
      ((body i s).1 = true ∧ I (i + step) (body i s).2) ∨
        ((body i s).1 = false ∧ Q (body i s).2)) :
    ∃ s', run step n body s = some s' ∧
      (Q s' ∨ ∃ i, n ≤ i ∧ i < n + step ∧ step ∣ i ∧ I i s') :=
  turns_rule hpos hn hbody (by omega) (dvd_zero step) (by omega) h

/-- The rule for a body that never leaves the loop. -/
theorem run_invariant (hpos : 0 < step) (hn : n + step ≤ 2 ^ 31) (h : I 0 s)
    (hbody : ∀ i s, i < n → step ∣ i → I i s →
      (body i s).1 = true ∧ I (i + step) (body i s).2) :
    ∃ s' i, run step n body s = some s' ∧ n ≤ i ∧ i < n + step ∧ step ∣ i ∧ I i s' := by
  obtain ⟨s', hrun, hq | ⟨i, hi⟩⟩ := run_rule (Q := fun _ ↦ False) hpos hn h
    fun i s hlt hdvd hI ↦ .inl (hbody i s hlt hdvd hI)
  · exact hq.elim
  · exact ⟨s', i, hrun, hi⟩

/-- A loop that goes on overflows once a turn has the last multiple of the step for an index. -/
theorem turns_eq_none (hstep : step ∣ 2 ^ 31) (hn : 2 ^ 31 < n + step)
    (hbody : ∀ i s, (body i s).1 = true) (fuel : ℕ) {i : ℕ} (hi : step ∣ i) (hlt : i < 2 ^ 31) :
    turns step n body fuel i s = none := by
  induction fuel generalizing i s with
  | zero => rfl
  | succ fuel ih =>
      -- both are multiples of the step, so there is room for one more step
      have hroom : i + step ≤ 2 ^ 31 :=
        Nat.le_of_lt_add_of_dvd (Nat.add_lt_add_right hlt step) (hi.add (dvd_refl step)) hstep
      rw [turns, if_pos (by omega), if_pos (hbody i s)]
      split
      case isTrue hin => exact ih (hi.add (dvd_refl step)) hin
      case isFalse => rfl

theorem run_eq_none (hstep : step ∣ 2 ^ 31) (hn : 2 ^ 31 < n + step)
    (hbody : ∀ i s, (body i s).1 = true) : run step n body s = none :=
  turns_eq_none hstep hn hbody (n + 1) (dvd_zero step) (by norm_num)

/-! ## Loops that keep a list -/

/-- The list has an entry for each index before `i`. -/
def Visited {β : Type*} (step : ℕ) (entry : ℕ → β) (i : ℕ) (l : List β) : Prop :=
  ∀ b, b ∈ l ↔ ∃ j < i, step ∣ j ∧ b = entry j

theorem visited_zero {β : Type*} (step : ℕ) (entry : ℕ → β) : Visited step entry 0 [] := by
  intro b
  simp

theorem Visited.snoc {β : Type*} {entry : ℕ → β} {i : ℕ} {l : List β} (hpos : 0 < step)
    (h : Visited step entry i l) (hi : step ∣ i) :
    Visited step entry (i + step) (l ++ [entry i]) := by
  intro b
  rw [List.mem_append, h b, List.mem_singleton]
  constructor
  · rintro (⟨j, hj, hdvd, rfl⟩ | rfl)
    · exact ⟨j, hj.trans (Nat.lt_add_of_pos_right hpos), hdvd, rfl⟩
    · exact ⟨i, Nat.lt_add_of_pos_right hpos, hi, rfl⟩
  · rintro ⟨j, hj, hdvd, rfl⟩
    -- the next multiple of the step is `i` itself
    have hle : j ≤ i := Nat.le_of_lt_add_of_dvd hj hdvd hi
    obtain hlt | rfl := hle.lt_or_eq
    · exact .inl ⟨j, hlt, hdvd, rfl⟩
    · exact .inr rfl

end IntLoop
