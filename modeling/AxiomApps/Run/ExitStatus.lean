import AxiomApps.Run.Exit
import AxiomApps.Run.Options

/-!
# The exit status of axiom-run

With the exit service on, the first status the master receives is kept and each later one is
weighed against the one kept so far, until every node has reported. The usage text says for
each argument of `-E` which of the statuses that should be. The first status that tells of a
signal is kept in any case, unless the exit mode disregards it.
-/

namespace AxiomApps.Run.ExitStatus

open Exit

/-- The loop of `master_receiver`, given the statuses of the messages `CMD_EXIT` it receives:
the status `manage_master_services` returns, none while it waits for more. -/
def receive (mode : ℕ) : Master → List ℕ → Option ℕ
  | _, [] => none
  | m, status :: statuses =>
      let m := masterReceiver mode m status
      if m.left then some m.exitStatus else receive mode m statuses

/-- `manage_master_services` with the exit service on. -/
def manageMasterServices (flags nnodes : ℕ) (statuses : List ℕ) : Option ℕ :=
  receive (exitMode flags) ⟨true, 0, nnodes, false⟩ statuses

/-- What the usage text says of an argument of `-E`. -/
def Documented (mode : ℤ) (statuses : List ℕ) (result : ℕ) : Prop :=
  match mode with
  | 0 => result ∈ statuses ∧ ∀ status ∈ statuses, wexitstatus status ≤ wexitstatus result
  | 1 => result ∈ statuses ∧ ∀ status ∈ statuses, wexitstatus result ≤ wexitstatus status
  | 2 => statuses.head? = some result
  | 3 => statuses.getLast? = some result
  | 4 => result = 0
  | _ => statuses.head? = some result

/-! ## The status kept -/

/-- The status kept after some more have come in. -/
def keep (mode kept : ℕ) (statuses : List ℕ) : ℕ :=
  statuses.foldl (fun kept status ↦ if mode = 4 then 0 else combine mode kept status) kept

theorem receive_eq_keep (mode kept status : ℕ) (statuses : List ℕ) (left : Bool) :
    receive mode ⟨false, kept, (status :: statuses).length, left⟩ (status :: statuses) =
      some (keep mode kept (status :: statuses)) := by
  induction statuses generalizing kept status left with
  | nil => simp [receive, masterReceiver, keep]
  | cons next statuses ih =>
      have hcounter : ((status :: next :: statuses).length : ℤ) - 1 =
          (next :: statuses).length := by simp
      have hleft : ((next :: statuses).length : ℤ) ≠ 0 := by
        simp only [List.length_cons]
        omega
      rw [receive]
      simp only [masterReceiver, Bool.false_eq_true, if_false, hcounter, hleft, decide_false]
      rw [ih]
      rfl

/-- The loop ends with the last status, and what it returns is built from the first. -/
theorem manageMasterServices_eq (flags status : ℕ) (statuses : List ℕ) :
    manageMasterServices flags (status :: statuses).length (status :: statuses) =
      some (keep (exitMode flags) (if exitMode flags = 4 then 0 else status) statuses) := by
  rw [manageMasterServices, receive]
  cases statuses with
  | nil => simp [masterReceiver, keep]
  | cons next statuses =>
      have hcounter : ((status :: next :: statuses).length : ℤ) - 1 =
          (next :: statuses).length := by simp
      have hleft : ((next :: statuses).length : ℤ) ≠ 0 := by
        simp only [List.length_cons]
        omega
      simp only [masterReceiver, if_true, hcounter, hleft, decide_false, Bool.false_eq_true,
        if_false]
      exact receive_eq_keep ..

/-! ## Children that exit normally -/

section Normal

variable {mode kept : ℕ} {statuses : List ℕ}

/-- When each step keeps the better of two statuses, the best of all is kept. -/
theorem keep_best {r : ℕ → ℕ → Prop} (hrefl : ∀ a, r a a)
    (htrans : ∀ a b c, r a b → r b c → r a c) (hmode : mode ≠ 4)
    (hstep : ∀ a b, wifexited a = true → wifexited b = true →
      (combine mode a b = a ∨ combine mode a b = b) ∧ r a (combine mode a b) ∧
        r b (combine mode a b))
    (hkept : wifexited kept = true) (hall : ∀ status ∈ statuses, wifexited status = true) :
    keep mode kept statuses ∈ kept :: statuses ∧
      ∀ status ∈ kept :: statuses, r status (keep mode kept statuses) := by
  induction statuses generalizing kept with
  | nil => simpa [keep] using hrefl kept
  | cons status statuses ih =>
      obtain ⟨hstatus, hrest⟩ := List.forall_mem_cons.mp hall
      obtain ⟨hone, hle, hle'⟩ := hstep kept status hkept hstatus
      have hnext : wifexited (combine mode kept status) = true := by
        rcases hone with h | h <;> rw [h] <;> assumption
      have hkeep : keep mode kept (status :: statuses) =
          keep mode (combine mode kept status) statuses := by
        simp [keep, hmode]
      obtain ⟨hmem, hbest⟩ := ih hnext hrest
      obtain ⟨hbest, hbest'⟩ := List.forall_mem_cons.mp hbest
      rw [hkeep]
      refine ⟨?_, ?_⟩
      · rcases List.mem_cons.mp hmem with heq | hmem
        · rw [heq]
          rcases hone with h | h <;> simp [h]
        · exact List.mem_cons_of_mem _ (List.mem_cons_of_mem _ hmem)
      · refine List.forall_mem_cons.mpr ⟨htrans _ _ _ hle hbest, ?_⟩
        exact List.forall_mem_cons.mpr ⟨htrans _ _ _ hle' hbest, hbest'⟩

theorem keep_greatest (hkept : wifexited kept = true)
    (hall : ∀ status ∈ statuses, wifexited status = true) :
    keep 0 kept statuses ∈ kept :: statuses ∧
      ∀ status ∈ kept :: statuses, wexitstatus status ≤ wexitstatus (keep 0 kept statuses) := by
  refine keep_best (r := fun a b ↦ wexitstatus a ≤ wexitstatus b) (fun _ ↦ le_rfl)
    (fun _ _ _ ↦ le_trans) (by decide) (fun a b ha hb ↦ ?_) hkept hall
  simp only [combine, ha, hb, if_true]
  split_ifs with hlt
  · exact ⟨.inr rfl, hlt.le, le_rfl⟩
  · exact ⟨.inl rfl, le_rfl, not_lt.mp hlt⟩

theorem keep_least (hkept : wifexited kept = true)
    (hall : ∀ status ∈ statuses, wifexited status = true) :
    keep 1 kept statuses ∈ kept :: statuses ∧
      ∀ status ∈ kept :: statuses, wexitstatus (keep 1 kept statuses) ≤ wexitstatus status := by
  refine keep_best (r := fun a b ↦ wexitstatus b ≤ wexitstatus a) (fun _ ↦ le_rfl)
    (fun _ _ _ hab hbc ↦ hbc.trans hab) (by decide) (fun a b ha hb ↦ ?_) hkept hall
  simp only [combine, ha, hb, if_true]
  split_ifs with hlt
  · exact ⟨.inr rfl, hlt.le, le_rfl⟩
  · exact ⟨.inl rfl, le_rfl, not_lt.mp hlt⟩

theorem keep_first (hkept : wifexited kept = true)
    (hall : ∀ status ∈ statuses, wifexited status = true) : keep 5 kept statuses = kept := by
  induction statuses with
  | nil => rfl
  | cons status statuses ih =>
      obtain ⟨hstatus, hrest⟩ := List.forall_mem_cons.mp hall
      have hstep : combine 5 kept status = kept := by simp [combine, hkept, hstatus]
      have hkeep : keep 5 kept (status :: statuses) = keep 5 (combine 5 kept status) statuses := rfl
      rw [hkeep, hstep]
      exact ih hrest

theorem keep_zero (statuses : List ℕ) : keep 4 0 statuses = 0 := by
  induction statuses with
  | nil => rfl
  | cons status statuses ih => exact ih

end Normal

/-- When every child exits normally the status is the one documented for the argument of
`-E`, except that the modes for the first and for the last status are the wrong way round. -/
theorem documented_iff {flags flags' : ℕ} {mode : ℤ}
    (hflags : setFlags flags (.exitmode mode) = some flags') :
    (∀ statuses : List ℕ, statuses ≠ [] → (∀ status ∈ statuses, wifexited status = true) →
      ∃ result, manageMasterServices flags' statuses.length statuses = some result ∧
        Documented mode statuses result) ↔ mode ≠ 2 ∧ mode ≠ 3 := by
  obtain ⟨hnonneg, hle, hmode⟩ := exitMode_of_exitmode hflags
  constructor
  · intro h
    obtain ⟨result, hresult, hdoc⟩ := h [0, 256] (by simp) (by decide)
    rw [manageMasterServices_eq, hmode] at hresult
    constructor
    · rintro rfl
      exact absurd (hdoc.trans hresult.symm) (by decide)
    · rintro rfl
      exact absurd (hdoc.trans hresult.symm) (by decide)
  · rintro ⟨hfirst, hlast⟩ statuses hne hall
    obtain ⟨status, statuses, rfl⟩ := List.exists_cons_of_ne_nil hne
    obtain ⟨hstatus, hrest⟩ := List.forall_mem_cons.mp hall
    refine ⟨_, manageMasterServices_eq flags' status statuses, ?_⟩
    rw [hmode]
    obtain rfl | rfl | rfl | rfl : mode = 0 ∨ mode = 1 ∨ mode = 4 ∨ mode = 5 := by omega
    · exact keep_greatest hstatus hrest
    · exact keep_least hstatus hrest
    · exact keep_zero statuses
    · rw [Documented]
      · exact congrArg some (keep_first hstatus hrest).symm
      all_goals decide

theorem documented_greatest : setFlags 0 (.exitmode 0) = some 0 ∧
    ∀ statuses : List ℕ, statuses ≠ [] → (∀ status ∈ statuses, wifexited status = true) →
      ∃ result, manageMasterServices 0 statuses.length statuses = some result ∧
        Documented 0 statuses result :=
  ⟨by decide, (@documented_iff 0 0 0 (by decide)).mpr ⟨by decide, by decide⟩⟩

/-- With `-E 2`, documented as the first exit code, the last of two is returned. -/
theorem firstMode_last : flagsOfOptions [.exitmode 2] = some 8 ∧
    (∀ status ∈ [0, 256], wifexited status = true) ∧
    manageMasterServices 8 2 [0, 256] = some 256 ∧ ¬ Documented 2 [0, 256] 256 :=
  ⟨by decide, by decide, by decide, by simp [Documented]⟩

/-! ## Children that die by a signal -/

section Signals

variable {mode kept : ℕ} {statuses : List ℕ}

/-- The status of a child that died by a signal is never replaced. -/
theorem keep_of_signalled (hmode : mode ≠ 4) (hkept : wifexited kept = false)
    (statuses : List ℕ) : keep mode kept statuses = kept := by
  induction statuses with
  | nil => rfl
  | cons status statuses ih =>
      have hstep : combine mode kept status = kept := by simp [combine, hkept]
      have hkeep : keep mode kept (status :: statuses) =
          keep mode (combine mode kept status) statuses := by
        simp [keep, hmode]
      rw [hkeep, hstep]
      exact ih

/-- The first status that is not a normal exit is the one kept. -/
theorem keep_first_signalled (hnofail : mode ≠ 4) (habs : mode ≠ 5) {signalled : ℕ}
    (h : (kept :: statuses).find? (fun status ↦ !wifexited status) = some signalled) :
    keep mode kept statuses = signalled := by
  induction statuses generalizing kept with
  | nil =>
      obtain ⟨-, rfl⟩ : wifexited kept = false ∧ kept = signalled := by
        simpa [List.find?_singleton] using h
      rfl
  | cons status statuses ih =>
      have hkeep : keep mode kept (status :: statuses) =
          keep mode (combine mode kept status) statuses := by
        simp [keep, hnofail]
      cases hkept : wifexited kept with
      | false =>
          obtain rfl : kept = signalled := by simpa [List.find?_cons, hkept] using h
          exact keep_of_signalled hnofail hkept _
      | true =>
          rw [List.find?_cons, hkept] at h
          simp only [Bool.not_true] at h
          rw [hkeep]
          refine ih ?_
          cases hstatus : wifexited status with
          | false =>
              -- the signal replaces the exit status kept so far
              have hstep : combine mode kept status = status := by
                simp [combine, hkept, hstatus, habs]
              rwa [hstep]
          | true =>
              have hnext : wifexited (combine mode kept status) = true := by
                simp only [combine, hkept, hstatus, if_true]
                split <;> try split_ifs
                all_goals assumption
              rw [List.find?_cons, hstatus] at h
              simpa [List.find?_cons, hnext] using h

end Signals

/-- The exit codes of the statuses. -/
def codes (statuses : List ℕ) : Set ℕ := {c | ∃ status ∈ statuses, wexitstatus status = c}

theorem codes_congr {statuses statuses' : List ℕ} (h : statuses'.Perm statuses) :
    codes statuses' = codes statuses := by
  simp only [codes, h.mem_iff]

/-- The greatest, or the least, of the exit codes is returned. -/
theorem manageMasterServices_extreme (flags : ℕ) {statuses : List ℕ} (hne : statuses ≠ [])
    (hall : ∀ status ∈ statuses, wifexited status = true) :
    (exitMode flags = 0 → ∃ result, manageMasterServices flags statuses.length statuses =
      some result ∧ IsGreatest (codes statuses) (wexitstatus result)) ∧
    (exitMode flags = 1 → ∃ result, manageMasterServices flags statuses.length statuses =
      some result ∧ IsLeast (codes statuses) (wexitstatus result)) := by
  obtain ⟨status, statuses, rfl⟩ := List.exists_cons_of_ne_nil hne
  obtain ⟨hstatus, hrest⟩ := List.forall_mem_cons.mp hall
  constructor
  · intro hmode
    obtain ⟨hmem, hle⟩ := keep_greatest hstatus hrest
    refine ⟨_, manageMasterServices_eq flags status statuses, ?_⟩
    rw [hmode]
    refine ⟨⟨_, hmem, rfl⟩, ?_⟩
    rintro _ ⟨status', hstatus', rfl⟩
    exact hle status' hstatus'
  · intro hmode
    obtain ⟨hmem, hle⟩ := keep_least hstatus hrest
    refine ⟨_, manageMasterServices_eq flags status statuses, ?_⟩
    rw [hmode]
    refine ⟨⟨_, hmem, rfl⟩, ?_⟩
    rintro _ ⟨status', hstatus', rfl⟩
    exact hle status' hstatus'

/-- The first signal decides the exit status; without one the modes for the greatest and the
least exit code return it, so that the order of the messages makes no difference to the code. -/
theorem signal_wins {flags : ℕ} (hnofail : exitMode flags ≠ 4) (habs : exitMode flags ≠ 5)
    {statuses : List ℕ} (hne : statuses ≠ []) :
    ∃ result, manageMasterServices flags statuses.length statuses = some result ∧
      (∀ signalled, statuses.find? (fun status ↦ !wifexited status) = some signalled →
        result = signalled) ∧
      ((∀ status ∈ statuses, wifexited status = true) →
        (exitMode flags = 0 → IsGreatest (codes statuses) (wexitstatus result)) ∧
        (exitMode flags = 1 → IsLeast (codes statuses) (wexitstatus result)) ∧
        (exitMode flags = 0 ∨ exitMode flags = 1 → ∀ statuses' : List ℕ,
          statuses'.Perm statuses → ∃ result',
            manageMasterServices flags statuses'.length statuses' = some result' ∧
              wexitstatus result' = wexitstatus result)) := by
  obtain ⟨status, rest, rfl⟩ := List.exists_cons_of_ne_nil hne
  have hresult := manageMasterServices_eq flags status rest
  rw [if_neg hnofail] at hresult
  refine ⟨_, hresult, fun signalled h ↦ keep_first_signalled hnofail habs h, fun hall ↦ ?_⟩
  obtain ⟨hgreatest, hleast⟩ := manageMasterServices_extreme flags hne hall
  simp only [hresult, Option.some.injEq, exists_eq_left'] at hgreatest hleast
  refine ⟨hgreatest, hleast, fun hmode statuses' hperm ↦ ?_⟩
  have hall' : ∀ status ∈ statuses', wifexited status = true :=
    fun status hstatus ↦ hall status (hperm.subset hstatus)
  have hne' : statuses' ≠ [] := by
    rintro rfl
    exact hne hperm.nil_eq.symm
  obtain ⟨hgreatest', hleast'⟩ := manageMasterServices_extreme flags hne' hall'
  rcases hmode with hmode | hmode
  · obtain ⟨result', hresult', hcode⟩ := hgreatest' hmode
    rw [codes_congr hperm] at hcode
    exact ⟨result', hresult', hcode.unique (hgreatest hmode)⟩
  · obtain ⟨result', hresult', hcode⟩ := hleast' hmode
    rw [codes_congr hperm] at hcode
    exact ⟨result', hresult', hcode.unique (hleast hmode)⟩

/-- Signal 9 comes between exit codes, before signal 15. -/
theorem signal_wins_kill : exitMode 0 = 0 ∧
    manageMasterServices 0 4 [512, 9, 256, 15] = some 9 := by
  obtain ⟨result, hresult, hsignal, -⟩ := @signal_wins 0 (by decide) (by decide)
    [512, 9, 256, 15] (by decide)
  obtain rfl : result = 9 := hsignal 9 (by decide)
  exact ⟨by decide, hresult⟩

end AxiomApps.Run.ExitStatus
