import Mathlib.Tactic

/-!
# Flags of axiom-run

Two bits of `flags` say whether and how the output of a node is identified; the next three
hold the exit mode. The options are read in order, and only `-E` clears what was set before.
-/

namespace AxiomApps.Run

/-- `IDENT_FLAG` -/
def identBit : ℕ := 0x01

/-- `ALTERNATE_IDENT_FLAG` -/
def alternateIdentBit : ℕ := 0x02

def exitFlagMask : ℕ := 0x1c

def exitFlagShift : ℕ := 2

/-- The options that change `flags`. The argument of `-i` may be missing; numbers are those
`atoi` returns. -/
inductive FlagOption
  | ident (mode : Option ℤ)
  | exitmode (mode : ℤ)
  | profileGasnet
  | profileOmpss
  | profileAll
  deriving DecidableEq, Repr

/-- One turn of the option loop of `main`, none if it exits. -/
def setFlags (flags : ℕ) : FlagOption → Option ℕ
  | .ident mode =>
      let flags := flags ||| identBit
      some (if mode = some 1 then flags ||| alternateIdentBit else flags)
  | .exitmode mode =>
      if mode < 0 ∨ 5 < mode then none
      -- what is xored away are the bits of the mask
      else some (flags ^^^ (flags &&& exitFlagMask) ||| mode.toNat <<< exitFlagShift)
  | .profileGasnet => some (flags ||| identBit ||| 5 <<< exitFlagShift)
  | .profileOmpss | .profileAll => some (flags ||| identBit)

def flagsOfOptions (opts : List FlagOption) : Option ℕ :=
  opts.foldlM setFlags 0

/-- `flags & EXIT_FLAG_MASK`, compared with the shifted modes. -/
def exitMode (flags : ℕ) : ℕ := (flags &&& exitFlagMask) >>> exitFlagShift

theorem testBit_exitFlagMask (i : ℕ) :
    exitFlagMask.testBit (exitFlagShift + i) = decide (i < 3) := by
  rcases lt_or_ge i 3 with hi | hi
  · interval_cases i <;> rfl
  · have hlt : exitFlagMask < 2 ^ (exitFlagShift + i) :=
      lt_of_lt_of_le (by decide : exitFlagMask < 2 ^ 5)
        (Nat.pow_le_pow_right (by decide) (by simp only [exitFlagShift]; omega))
    rw [Nat.testBit_lt_two_pow hlt, decide_eq_false (not_lt.mpr hi)]

theorem testBit_exitMode (flags i : ℕ) :
    (exitMode flags).testBit i = (flags.testBit (exitFlagShift + i) && decide (i < 3)) := by
  rw [exitMode, Nat.testBit_shiftRight, Nat.testBit_and, testBit_exitFlagMask]

/-- After `-E` the exit mode is the one that was asked for. -/
theorem exitMode_of_exitmode {flags flags' : ℕ} {mode : ℤ}
    (h : setFlags flags (.exitmode mode) = some flags') :
    0 ≤ mode ∧ mode ≤ 5 ∧ exitMode flags' = mode.toNat := by
  simp only [setFlags, Option.ite_none_left_eq_some, Option.some.injEq, not_or, not_lt] at h
  obtain ⟨⟨hnonneg, hle⟩, rfl⟩ := h
  refine ⟨hnonneg, hle, Nat.eq_of_testBit_eq fun i ↦ ?_⟩
  rw [testBit_exitMode, Nat.testBit_or, Nat.testBit_xor, Nat.testBit_and, testBit_exitFlagMask,
    Nat.testBit_shiftLeft]
  rcases lt_or_ge i 3 with hi | hi
  · simp [hi]
  · have hlt : mode.toNat < 2 ^ i :=
      lt_of_lt_of_le (by omega : mode.toNat < 2 ^ 3) (Nat.pow_le_pow_right (by decide) hi)
    simp [not_lt.mpr hi, Nat.testBit_lt_two_pow hlt]

end AxiomApps.Run
