import AxiomApps.Run.Sched

/-!
# Rejected scheduling options

`sch_decodeopt` stores the policy and the parameters while it reads the option and restores
nothing when it finds the option malformed. axiom-run does not look at its result: it goes on
with what was stored.
-/

namespace AxiomApps.Run.Sched

open Decimal

/-- What a policy uses of the parameters. -/
def used (st : Params) : List (BitVec 64) :=
  match kind st.policy with
  | .idle | .unknown => []
  | .nice | .priority => [st.p0]
  | .deadline => [st.p0, st.p1, st.p2]

/-! ## Texts of options -/

/-- The unit of a parameter, its factor to microseconds and what follows. -/
inductive UnitText (percent : Bool) : List Char → BitVec 64 → List Char → Prop
  | usec (rest : List Char) : UnitText percent ('u' :: rest) 1 rest
  | msec (rest : List Char) : UnitText percent ('m' :: rest) 1000 rest
  | percentage (rest : List Char) (h : percent = true) : UnitText percent ('%' :: rest) 1 rest
  | sec (rest : List Char) (hu : rest.head? ≠ some 'u') (hm : rest.head? ≠ some 'm')
      (h : percent = true → rest.head? ≠ some '%') : UnitText percent rest 1000000 rest

/-- A parameter of an option: a comma and a number, with a unit if it is one of a deadline. -/
inductive ParamText (deadline percent : Bool) : List Char → BitVec 64 → List Char → Prop
  | plain {n rest : List Char} {z : ℤ} (hdeadline : deadline = false) (hn : Number n z)
      (hstops : Stops rest) :
      ParamText deadline percent (',' :: (n ++ rest)) (BitVec.ofInt 64 (clamp z)) rest
  | time {n s rest : List Char} {z : ℤ} {factor : BitVec 64} (hdeadline : deadline = true)
      (hn : Number n z) (hstops : Stops s) (hunit : UnitText percent s factor rest) :
      ParamText deadline percent (',' :: (n ++ s)) (BitVec.ofInt 64 (clamp z) * factor) rest

/-- The text after the policy says nothing new about the parameters in force: those that stand
before the place where it is malformed are the same, and if a number is missing there, that
parameter is 0. -/
inductive KeepsParams (deadline : Bool) : Bool → List (BitVec 64) → List Char → Prop
  | done (percent : Bool) (s : List Char) : KeepsParams deadline percent [] s
  | ended (percent : Bool) (ps : List (BitVec 64)) : KeepsParams deadline percent ps []
  | noComma {percent : Bool} {ps : List (BitVec 64)} {c : Char} {s : List Char} (hc : c ≠ ',') :
      KeepsParams deadline percent ps (c :: s)
  | noNumber {percent : Bool} {ps : List (BitVec 64)} {s : List Char} (hs : NoNumber s) :
      KeepsParams deadline percent (0 :: ps) (',' :: s)
  | param {percent : Bool} {p : BitVec 64} {ps : List (BitVec 64)} {s rest : List Char}
      (hp : ParamText deadline percent s p rest) (hrest : KeepsParams deadline false ps rest) :
      KeepsParams deadline percent (p :: ps) s

/-- The option names the policy in force, by its name or its number, and keeps the parameters
this policy uses. Without a policy it is taken for SCHED_OTHER. -/
inductive Kept (st : Params) : List Char → Prop
  | noPolicy {opt : List Char} (hopt : NoNumber opt) (hname : ∀ n ∈ policyNames, ¬ n.1 <+: opt)
      (hpolicy : st.policy = schedOther) : Kept st opt
  | name {word rest : List Char} (hname : (word, st.policy) ∈ policyNames)
      (hparams : KeepsParams (st.policy = schedDeadline) true (used st) rest) :
      Kept st (word ++ rest)
  | number {n rest : List Char} {z : ℤ} (hn : Number n z) (hstops : Stops rest)
      (hpolicy : BitVec.ofInt 32 (clamp z) = st.policy)
      (hparams : KeepsParams (st.policy = schedDeadline) true (used st) rest) :
      Kept st (n ++ rest)

/-! ## What the reader makes of them -/

theorem applyUnit_unitText {percent : Bool} {s rest : List Char} {factor : BitVec 64}
    (h : UnitText percent s factor rest) (v : BitVec 64) :
    ∃ per, applyUnit percent v s = (v * factor, rest, per) := by
  cases h with
  | usec => exact ⟨false, by simp [applyUnit]⟩
  | msec => exact ⟨false, rfl⟩
  | percentage _ h => exact ⟨true, by simp [applyUnit, h]⟩
  | sec _ hu hm h =>
      refine ⟨false, ?_⟩
      unfold applyUnit
      split
      · simp at hu
      · simp at hm
      · have hpercent : percent = false := by simpa using h
        simp [hpercent]
      · rfl

theorem exists_unitText (percent : Bool) (s : List Char) :
    ∃ factor rest, UnitText percent s factor rest := by
  by_cases hu : s.head? = some 'u'
  · obtain ⟨t, rfl⟩ := List.head?_eq_some_iff.mp hu
    exact ⟨1, t, .usec t⟩
  · by_cases hm : s.head? = some 'm'
    · obtain ⟨t, rfl⟩ := List.head?_eq_some_iff.mp hm
      exact ⟨1000, t, .msec t⟩
    · by_cases hp : percent = true ∧ s.head? = some '%'
      · obtain ⟨t, rfl⟩ := List.head?_eq_some_iff.mp hp.2
        exact ⟨1, t, .percentage t hp.1⟩
      · exact ⟨1000000, s, .sec s hu hm fun h hs ↦ hp ⟨h, hs⟩⟩

section ReadParam

variable (commaMsg valueMsg : String) {deadline percent : Bool} {p : BitVec 64}
  {ps : List (BitVec 64)} {s rest : List Char}

theorem readParam_noComma {c : Char} (hc : c ≠ ',') :
    readParam commaMsg valueMsg deadline percent (c :: s) = (none, .error commaMsg) :=
  if_pos hc

theorem readParam_noNumber (hs : NoNumber s) :
    readParam commaMsg valueMsg deadline percent (',' :: s) = (some 0, .error valueMsg) := by
  simp [readParam, (strtol_eq_none_iff s).mpr hs]

theorem readParam_paramText (h : ParamText deadline percent s p rest) :
    ∃ per, readParam commaMsg valueMsg deadline percent s = (some p, .ok (rest, per)) := by
  cases h with
  | plain hdeadline hn hstops =>
      exact ⟨false, by simp [readParam, strtol_number hn hstops, hdeadline]⟩
  | @time n s _ z _ hdeadline hn hstops hunit =>
      obtain ⟨per, happly⟩ := applyUnit_unitText hunit (BitVec.ofInt 64 (clamp z))
      exact ⟨per, by simp [readParam, strtol_number hn hstops, hdeadline, happly]⟩

/-- The four kinds of texts at the place of a parameter. -/
theorem paramText_cases (deadline percent : Bool) (s : List Char) :
    s = [] ∨ (∃ c t, s = c :: t ∧ c ≠ ',') ∨ (∃ t, s = ',' :: t ∧ NoNumber t) ∨
      ∃ p rest, ParamText deadline percent s p rest := by
  cases s with
  | nil => exact .inl rfl
  | cons c t =>
      by_cases hc : c = ','
      · subst hc
        cases hread : strtol t with
        | none => exact .inr (.inr (.inl ⟨t, rfl, (strtol_eq_none_iff t).mp hread⟩))
        | some r =>
            obtain ⟨n, z, rfl, hn, hstops, -⟩ := number_of_strtol hread
            refine .inr (.inr (.inr ?_))
            cases hdeadline : deadline
            · exact ⟨_, _, .plain rfl hn hstops⟩
            · obtain ⟨factor, rest, hunit⟩ := exists_unitText percent r.2
              exact ⟨_, _, .time rfl hn hstops hunit⟩
      · exact .inr (.inl ⟨c, t, rfl, hc⟩)

theorem keepsParams_cons_iff : KeepsParams deadline percent (p :: ps) s ↔
    (readParam commaMsg valueMsg deadline percent s).1.getD p = p ∧
    ∀ rest per, (readParam commaMsg valueMsg deadline percent s).2 = .ok (rest, per) →
      KeepsParams deadline false ps rest := by
  constructor
  · intro h
    cases h with
    | ended =>
        refine ⟨rfl, ?_⟩
        rintro rest per ⟨⟩
        exact .ended false ps
    | noComma hc => simp [readParam_noComma commaMsg valueMsg hc]
    | noNumber hs => simp [readParam_noNumber commaMsg valueMsg hs]
    | param hp hrest =>
        obtain ⟨per, hread⟩ := readParam_paramText commaMsg valueMsg hp
        rw [hread]
        refine ⟨rfl, ?_⟩
        rintro rest per ⟨⟩
        exact hrest
  · rintro ⟨hp, hrest⟩
    obtain rfl | ⟨c, t, rfl, hc⟩ | ⟨t, rfl, ht⟩ | ⟨v, rest, hv⟩ :=
      paramText_cases deadline percent s
    · exact .ended percent _
    · exact .noComma hc
    · rw [readParam_noNumber commaMsg valueMsg ht] at hp
      obtain rfl : 0 = p := hp
      exact .noNumber ht
    · obtain ⟨per, hread⟩ := readParam_paramText commaMsg valueMsg hv
      rw [hread] at hp hrest
      obtain rfl : v = p := hp
      exact .param hv (hrest rest per rfl)

end ReadParam

/-! ## What stays of a rejected option -/

theorem decodeParams_rejected {st st' : Params} {rest : List Char} {msg : String}
    (h : decodeParams st rest = (st', some msg)) :
    st'.policy = st.policy ∧
      (used st' = used st ↔ KeepsParams (st.policy = schedDeadline) true (used st) rest) := by
  simp only [decodeParams] at h
  have hfirst (p : BitVec 64) (ps : List (BitVec 64)) := @keepsParams_cons_iff
    "'%s': comma expected (1)\n" "'%s': unrecognized param value (1)\n"
    (st.policy = schedDeadline) true p ps rest
  -- one case for each place where the reader returns
  generalize readParam _ _ _ true rest = r₀ at h hfirst
  obtain ⟨v₀, msg₀ | ⟨rest₁, per⟩⟩ := r₀
  · cases h
    refine ⟨rfl, ?_⟩
    simp only [used]
    cases kind st.policy <;> simp [hfirst, KeepsParams.done]
  · dsimp only at h
    have hsecond (p : BitVec 64) (ps : List (BitVec 64)) := @keepsParams_cons_iff
      "'%s': comma expected (2)" "'%s': unrecognized param value (2)"
      (st.policy = schedDeadline) false p ps rest₁
    generalize readParam _ _ _ false rest₁ = r₁ at h hsecond
    obtain ⟨v₁, msg₁ | ⟨rest₂, per₁⟩⟩ := r₁
    · cases h
      refine ⟨rfl, ?_⟩
      simp only [used]
      cases kind st.policy <;> simp [hfirst, hsecond, KeepsParams.done]
    · dsimp only at h
      have hthird (p : BitVec 64) (ps : List (BitVec 64)) := @keepsParams_cons_iff
        "'%s': comma expected (3)" "'%s': unrecognized param value (3)"
        (st.policy = schedDeadline) false p ps rest₂
      generalize readParam _ _ _ false rest₂ = r₂ at h hthird
      obtain ⟨v₂, msg₂ | ⟨rest₃, per₂⟩⟩ := r₂
      · cases h
        refine ⟨rfl, ?_⟩
        simp only [used]
        cases kind st.policy <;> simp [hfirst, hsecond, hthird, KeepsParams.done]
      · dsimp only at h
        split at h
        · cases h
          refine ⟨rfl, ?_⟩
          simp only [used]
          cases kind st.policy <;> simp [hfirst, hsecond, hthird, KeepsParams.done]
        · cases h

theorem decodePolicy_number {n rest : List Char} {z : ℤ} (hn : Number n z) (hstops : Stops rest) :
    decodePolicy (n ++ rest) = (BitVec.ofInt 32 (clamp z), some rest) := by
  rw [decodePolicy, strtol_number hn hstops]

theorem decodePolicy_name {word rest : List Char} {policy : BitVec 32}
    (h : (word, policy) ∈ policyNames) : decodePolicy (word ++ rest) = (policy, some rest) := by
  simp only [policyNames, List.mem_cons, Prod.mk.injEq, List.not_mem_nil, or_false] at h
  rcases h with ⟨rfl, rfl⟩ | ⟨rfl, rfl⟩ | ⟨rfl, rfl⟩ | ⟨rfl, rfl⟩ | ⟨rfl, rfl⟩ | ⟨rfl, rfl⟩ <;> rfl

theorem decodePolicy_noPolicy {opt : List Char} (hopt : NoNumber opt)
    (hname : ∀ n ∈ policyNames, ¬ n.1 <+: opt) : decodePolicy opt = (schedOther, none) := by
  have hfind : policyNames.find? (fun n ↦ n.1.isPrefixOf opt) = none :=
    List.find?_eq_none.mpr fun n hn ↦ by simpa using hname n hn
  rw [decodePolicy, (strtol_eq_none_iff opt).mpr hopt, hfind]
  rfl

/-- The three kinds of texts at the place of the policy. -/
theorem policy_cases (opt : List Char) :
    (NoNumber opt ∧ ∀ n ∈ policyNames, ¬ n.1 <+: opt) ∨
      (∃ word policy rest, opt = word ++ rest ∧ (word, policy) ∈ policyNames) ∨
      ∃ n z rest, opt = n ++ rest ∧ Number n z ∧ Stops rest := by
  cases hread : strtol opt with
  | some r =>
      obtain ⟨n, z, hopt, hn, hstops, -⟩ := number_of_strtol hread
      exact .inr (.inr ⟨n, z, r.2, hopt, hn, hstops⟩)
  | none =>
      by_cases hname : ∃ n ∈ policyNames, n.1 <+: opt
      · obtain ⟨n, hn, rest, rfl⟩ := hname
        exact .inr (.inl ⟨n.1, n.2, rest, rfl, hn⟩)
      · exact .inl ⟨(strtol_eq_none_iff opt).mp hread, fun n hn h ↦ hname ⟨n, hn, h⟩⟩

/-- A rejected option either has no policy, or something malformed follows it. -/
theorem decodeopt_cases {st st' : Params} {opt : List Char} {msg : String}
    (h : decodeopt st (some opt) = (st', some msg)) :
    ((decodePolicy opt).2 = none ∧ st' = { st with policy := (decodePolicy opt).1 }) ∨
      ∃ rest, (decodePolicy opt).2 = some rest ∧
        decodeParams { st with policy := (decodePolicy opt).1 } rest = (st', some msg) := by
  simp only [decodeopt] at h
  cases hrest : (decodePolicy opt).2 with
  | none =>
      rw [hrest] at h
      cases h
      exact .inl ⟨rfl, rfl⟩
  | some rest =>
      rw [hrest] at h
      cases rest with
      | nil => cases h
      | cons c rest => exact .inr ⟨c :: rest, rfl, h⟩

theorem decodeopt_keeps_iff {st st' : Params} {opt rest : List Char} {msg : String}
    {policy : BitVec 32} (h : decodeopt st (some opt) = (st', some msg))
    (hpolicy : decodePolicy opt = (policy, some rest)) :
    (st'.policy = st.policy ∧ used st' = used st) ↔
      policy = st.policy ∧ KeepsParams (st.policy = schedDeadline) true (used st) rest := by
  obtain ⟨hnone, -⟩ | ⟨rest', hrest, hparams⟩ := decodeopt_cases h
  · simp [hpolicy] at hnone
  · rw [hpolicy] at hrest hparams
    cases hrest
    obtain ⟨hst', hkeeps⟩ := decodeParams_rejected hparams
    by_cases hsame : policy = st.policy
    · subst hsame
      simp only [hst', hkeeps, true_and]
    · simp [hst', hsame]

theorem decodeopt_noPolicy {st st' : Params} {opt : List Char} {msg : String}
    (h : decodeopt st (some opt) = (st', some msg))
    (hpolicy : decodePolicy opt = (schedOther, none)) : st' = { st with policy := schedOther } := by
  obtain ⟨-, hst'⟩ | ⟨rest, hrest, -⟩ := decodeopt_cases h
  · rwa [hpolicy] at hst'
  · simp [hpolicy] at hrest

/-- What the policy uses is kept just when the option names it and its parameters. -/
theorem decodeopt_kept_iff {st st' : Params} {opt : List Char} {msg : String}
    (h : decodeopt st (some opt) = (st', some msg)) :
    (st'.policy = st.policy ∧ used st' = used st) ↔ Kept st opt := by
  constructor
  · intro hsame
    obtain ⟨hopt, hname⟩ | ⟨word, policy, rest, rfl, hname⟩ | ⟨n, z, rest, rfl, hn, hstops⟩ :=
      policy_cases opt
    · have hst' := decodeopt_noPolicy h (decodePolicy_noPolicy hopt hname)
      exact .noPolicy hopt hname (by rw [← hsame.1, hst'])
    · obtain ⟨rfl, hparams⟩ := (decodeopt_keeps_iff h (decodePolicy_name hname)).mp hsame
      exact .name hname hparams
    · obtain ⟨hpolicy, hparams⟩ :=
        (decodeopt_keeps_iff h (decodePolicy_number hn hstops)).mp hsame
      exact .number hn hstops hpolicy hparams
  · intro hkept
    cases hkept with
    | noPolicy hopt hname hpolicy =>
        rw [decodeopt_noPolicy h (decodePolicy_noPolicy hopt hname), ← hpolicy]
        exact ⟨rfl, rfl⟩
    | name hname hparams =>
        exact (decodeopt_keeps_iff h (decodePolicy_name hname)).mpr ⟨rfl, hparams⟩
    | number hn hstops hpolicy hparams =>
        exact (decodeopt_keeps_iff h (decodePolicy_number hn hstops)).mpr ⟨hpolicy, hparams⟩

/-! ## What the scheduler and the slaves see of the parameters -/

/-- A buffer can be long enough for two texts. -/
theorem eq_of_snprintf {s t : List Char}
    (h : ∀ size, snprintf size s = snprintf size t) : s = t := by
  have hsize := h (s.length + t.length + 1)
  rwa [snprintf_of_length (by omega), snprintf_of_length (by omega)] at hsize

theorem optText_plain_inj {m n : BitVec 64} {front : List Char}
    (h : front ++ ',' :: natText m.toNat = front ++ ',' :: natText n.toNat) : m = n := by
  have htext : natText m.toNat ++ [] = natText n.toNat ++ [] := by simpa using h
  exact BitVec.eq_of_toNat_eq (natText_append_inj stops_nil stops_nil htext).1

theorem natText_unit_inj {m n : BitVec 64} {s t : List Char}
    (h : natText m.toNat ++ 'u' :: s = natText n.toNat ++ 'u' :: t) : m = n ∧ s = t := by
  obtain ⟨hnum, hrest⟩ := natText_append_inj (stops_cons (by decide)) (stops_cons (by decide)) h
  exact ⟨BitVec.eq_of_toNat_eq hnum, (List.cons_inj_right _).mp hrest⟩

/-- The parameters can be read off the option, from a buffer that holds all of it. -/
theorem encodeopt_eq_iff {st st' : Params} (hpolicy : st'.policy = st.policy) :
    (∀ bufsize buf, encodeopt st' bufsize buf = encodeopt st bufsize buf) ↔ used st' = used st := by
  simp only [encodeopt, hpolicy, used]
  cases kind st.policy with
  | idle | unknown => simp
  | nice | priority =>
      simp only [List.cons.injEq, and_true]
      constructor
      · intro h
        exact optText_plain_inj (eq_of_snprintf fun size ↦ h size [])
      · intro h bufsize buf
        simp only [h]
  | deadline =>
      simp only [List.cons.injEq, and_true]
      constructor
      · intro h
        have htext := eq_of_snprintf fun size ↦ h size []
        simp only [List.append_assoc, List.cons_append, List.nil_append, List.append_cancel_left_eq,
          List.cons.injEq, true_and] at htext
        obtain ⟨h₀, htext⟩ := natText_unit_inj htext
        simp only [List.cons.injEq, true_and] at htext
        obtain ⟨h₁, htext⟩ := natText_unit_inj htext
        simp only [List.cons.injEq, true_and] at htext
        exact ⟨h₀, h₁, (natText_unit_inj htext).1⟩
      · rintro ⟨h₀, h₁, h₂⟩ bufsize buf
        simp only [h₀, h₁, h₂]

theorem setsched_eq_of_used {st st' : Params} (hpolicy : st'.policy = st.policy)
    (h : used st' = used st) : setsched st' = setsched st := by
  simp only [used, hpolicy] at h
  simp only [setsched, hpolicy]
  cases hkind : kind st.policy <;> simp_all

/-- After a rejected option `sch_setsched` and `sch_encodeopt` do what they did before, if and
only if what it says before the place where it is malformed is what was in force. -/
theorem rejected_unchanged_iff (st : Params) (opt : List Char) :
    ∀ st' msg, decodeopt st (some opt) = (st', some msg) →
      ((setsched st' = setsched st ∧
        ∀ bufsize buf, encodeopt st' bufsize buf = encodeopt st bufsize buf) ↔ Kept st opt) := by
  intro st' msg h
  rw [← decodeopt_kept_iff h]
  constructor
  · rintro ⟨hattr, hopt⟩
    have hpolicy := congrArg SchedAttr.policy hattr
    rw [setsched_policy, setsched_policy] at hpolicy
    exact ⟨hpolicy, (encodeopt_eq_iff hpolicy).mp hopt⟩
  · rintro ⟨hpolicy, hused⟩
    exact ⟨setsched_eq_of_used hpolicy hused, (encodeopt_eq_iff hpolicy).mpr hused⟩

/-- The number is missing, but the policy is the one in use. -/
theorem rejected_unchanged_other : ∃ st' msg,
    decodeopt initial (some ['O', 'T', 'H', 'E', 'R', ';', '5']) = (st', some msg) ∧
    setsched st' = setsched initial ∧
    ∀ bufsize buf, encodeopt st' bufsize buf = encodeopt initial bufsize buf := by
  have hdecode : decodeopt initial (some ['O', 'T', 'H', 'E', 'R', ';', '5']) =
      (initial, some "'%s': comma expected (1)\n") := by decide +kernel
  have hkept : Kept initial (['O', 'T', 'H', 'E', 'R'] ++ [';', '5']) :=
    .name (by decide) (.noComma (by decide))
  exact ⟨_, _, hdecode, (rejected_unchanged_iff initial _ _ _ hdecode).mpr hkept⟩

/-- A semicolon in place of the comma: the option is rejected and the threads run with the
policy it names. -/
theorem rejected_fifo_stored : ∃ st' msg,
    decodeopt initial (some ['F', 'I', 'F', 'O', ';', '5']) = (st', some msg) ∧
    (setsched initial).policy = schedOther ∧ (setsched st').policy = schedFifo ∧
    encodeopt initial 64 [] = ['0', ',', '0'] ∧ encodeopt st' 64 [] = ['1', ',', '0'] := by
  refine ⟨⟨schedFifo, 0, 0, 0⟩, "'%s': comma expected (1)\n", ?_, ?_, ?_, ?_, ?_⟩ <;>
    decide +kernel

end AxiomApps.Run.Sched
