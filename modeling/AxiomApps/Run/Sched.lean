import AxiomApps.Lib.Decimal

/-!
# Scheduling options of axiom-run

The master decodes the option `-S` into four variables, encodes them again for the command
line of the slaves, and each slave decodes that. Parameters are read as signed longs into
unsigned variables and printed as unsigned, and the option is built in a buffer of 64 bytes.
-/

namespace AxiomApps.Run.Sched

open Decimal

def schedOther : BitVec 32 := 0
def schedFifo : BitVec 32 := 1
def schedRr : BitVec 32 := 2
def schedBatch : BitVec 32 := 3
def schedIdle : BitVec 32 := 5
def schedDeadline : BitVec 32 := 6

/-- The cases of the switches over the policy, an int of which any value is accepted. -/
inductive Kind
  | idle
  | nice
  | priority
  | deadline
  | unknown
  deriving DecidableEq, Repr

def kind (policy : BitVec 32) : Kind :=
  if policy = schedIdle then .idle
  else if policy = schedOther ∨ policy = schedBatch then .nice
  else if policy = schedFifo ∨ policy = schedRr then .priority
  else if policy = schedDeadline then .deadline
  else .unknown

/-- The variables `sched_policy`, `sched_p0`, `sched_p1` and `sched_p2`. -/
structure Params where
  policy : BitVec 32
  p0 : BitVec 64
  p1 : BitVec 64
  p2 : BitVec 64
  deriving DecidableEq

def initial : Params := ⟨schedOther, 0, 0, 0⟩

/-- `sch_encodeopt`: the text in the buffer afterwards, given the text before. -/
def encodeopt (st : Params) (bufsize : ℕ) (buf : List Char) : List Char :=
  match kind st.policy with
  | .idle => snprintf bufsize (intText st.policy.toInt)
  | .nice | .priority =>
      snprintf bufsize (intText st.policy.toInt ++ ',' :: natText st.p0.toNat)
  | .deadline =>
      snprintf bufsize (intText st.policy.toInt ++ ',' :: natText st.p0.toNat ++ ['u', ','] ++
        natText st.p1.toNat ++ ['u', ','] ++ natText st.p2.toNat ++ ['u'])
  | .unknown => buf

/-! ## Decoding -/

def policyNames : List (List Char × BitVec 32) :=
  [(['O', 'T', 'H', 'E', 'R'], schedOther),
    (['D', 'E', 'A', 'D', 'L', 'I', 'N', 'E'], schedDeadline),
    (['F', 'I', 'F', 'O'], schedFifo),
    (['B', 'A', 'T', 'C', 'H'], schedBatch),
    (['I', 'D', 'L', 'E'], schedIdle),
    (['R', 'R'], schedRr)]

/-- The policy stored and what follows it, none if the policy is not recognized. Without a
number `strtol` returns 0. -/
def decodePolicy (s : List Char) : BitVec 32 × Option (List Char) :=
  match strtol s with
  | some (z, rest) => (BitVec.ofInt 32 z, some rest)
  | none =>
      match policyNames.find? fun n ↦ n.1.isPrefixOf s with
      | some (name, policy) => (policy, some (s.drop name.length))
      | none => (0, none)

/-- The units of a deadline parameter: the value stored, what follows, and whether it is a
percentage, which only the first parameter may be. -/
def applyUnit (percent : Bool) (v : BitVec 64) : List Char → BitVec 64 × List Char × Bool
  | 'u' :: rest => (v, rest, false)
  | 'm' :: rest => (v * 1000, rest, false)
  | '%' :: rest => if percent then (v, rest, true) else (v * 1000000, '%' :: rest, false)
  | rest => (v * 1000000, rest, false)

/-- One parameter, if there is one: the value stored, and the error message or what follows
it. The messages are formats for the option. -/
def readParam (commaMsg valueMsg : String) (deadline percent : Bool) :
    List Char → Option (BitVec 64) × Except String (List Char × Bool)
  | [] => (none, .ok ([], false))
  | c :: rest =>
      if c ≠ ',' then (none, .error commaMsg)
      else
        match strtol rest with
        | none => (some 0, .error valueMsg)
        | some (z, rest) =>
            let v := BitVec.ofInt 64 z
            if deadline then
              let r := applyUnit percent v rest
              (some r.1, .ok r.2)
            else (some v, .ok (rest, false))

def defaults (st : Params) : Params :=
  match kind st.policy with
  | .idle => st
  | .nice => { st with p0 := 0 }
  | .priority => { st with p0 := 1 }
  | .deadline => { st with p0 := 100 * 1000, p1 := 995 * 1000, p2 := 1000 * 1000 }
  | .unknown => st

/-- The parameters after the policy. What was stored before an error stays. -/
def decodeParams (st : Params) (rest : List Char) : Params × Option String :=
  let deadline := st.policy = schedDeadline
  let r := readParam "'%s': comma expected (1)\n" "'%s': unrecognized param value (1)\n"
    deadline true rest
  let st := { st with p0 := r.1.getD st.p0 }
  match r.2 with
  | .error msg => (st, some msg)
  | .ok (rest, per) =>
      let r := readParam "'%s': comma expected (2)" "'%s': unrecognized param value (2)"
        deadline false rest
      let st := { st with p1 := r.1.getD st.p1 }
      match r.2 with
      | .error msg => (st, some msg)
      | .ok (rest, _) =>
          let r := readParam "'%s': comma expected (3)" "'%s': unrecognized param value (3)"
            deadline false rest
          let st := { st with p2 := r.1.getD st.p2 }
          match r.2 with
          | .error msg => (st, some msg)
          | .ok (rest, _) =>
              if rest ≠ [] then (st, some "'%s': unexpected chars after parameter")
              else (if per then { st with p0 := st.p0 * st.p2 / 100 } else st, none)

/-- `sch_decodeopt`: the variables afterwards, and the message of the usage call if the
option is rejected. -/
def decodeopt (st : Params) : Option (List Char) → Params × Option String
  | none => (st, none)
  | some s =>
      let r := decodePolicy s
      let st := { st with policy := r.1 }
      match r.2 with
      | none => (st, some "'%s': unrecognized policy name or value\n")
      | some [] => (defaults st, none)
      | some rest => decodeParams st rest

/-- What `sch_setsched` sets in `struct sched_attr`. -/
structure SchedAttr where
  policy : BitVec 32
  nice : BitVec 32 := 0
  priority : BitVec 32 := 0
  runtime : BitVec 64 := 0
  deadline : BitVec 64 := 0
  period : BitVec 64 := 0
  deriving DecidableEq

def setsched (st : Params) : SchedAttr :=
  match kind st.policy with
  | .idle => { policy := st.policy }
  | .nice => { policy := st.policy, nice := st.p0.setWidth 32 }
  | .priority => { policy := st.policy, priority := st.p0.setWidth 32 }
  | .deadline =>
      { policy := st.policy, runtime := st.p0 * 1000, deadline := st.p1 * 1000
        period := st.p2 * 1000 }
  | .unknown => { policy := st.policy }

/-- The option `-S` of the slaves. The buffer holds the option `-m` before. -/
def slaveOpt (st : Params) (masterNode masterPort : BitVec 32) : List Char :=
  encodeopt st 64 (snprintf 64 (intText masterNode.toInt ++ ',' :: intText masterPort.toInt))

/-! ## What a slave reads -/

def numRead (n : ℕ) : BitVec 64 := BitVec.ofInt 64 (clamp n)

def digitCount (st : Params) : ℕ :=
  (natText st.p0.toNat).length + (natText st.p1.toNat).length + (natText st.p2.toNat).length

/-- The period a slave reads. With 57 digits in all the buffer has no room for the unit, and
with more the last digits are lost as well; a number without unit is in seconds. -/
def periodRead (st : Params) : BitVec 64 :=
  if digitCount st ≤ 56 then numRead st.p2.toNat
  else numRead (st.p2.toNat / 10 ^ (digitCount st - 57)) * 1000000

/-- When a slave requests what the master does. -/
def Carried (st : Params) (masterNode : BitVec 32) : Prop :=
  match kind st.policy with
  | .idle => True
  | .nice | .priority => st.p0.toNat < 2 ^ 63 ∨ st.p0.setWidth 32 = BitVec.allOnes 32
  | .deadline =>
      numRead st.p0.toNat * 1000 = st.p0 * 1000 ∧ numRead st.p1.toNat * 1000 = st.p1 * 1000 ∧
        periodRead st * 1000 = st.p2 * 1000
  | .unknown => masterNode = st.policy

theorem decodePolicy_intText (z : BitVec 32) {rest : List Char} (hrest : Stops rest) :
    decodePolicy (intText z.toInt ++ rest) = (z, some rest) := by
  rw [decodePolicy, strtol_intText _ hrest, clamp_toInt]
  simp

theorem numRead_toNat {p : BitVec 64} (h : p.toNat < 2 ^ 63) : numRead p.toNat = p := by
  have hclamp : clamp (p.toNat : ℤ) = p.toNat := by
    simp only [clamp]
    omega
  rw [numRead, hclamp, BitVec.ofInt_natCast, BitVec.ofNat_toNat, BitVec.setWidth_eq]

/-- A number that does not fit a long is read as the greatest long. -/
theorem numRead_of_le {p : BitVec 64} (h : 2 ^ 63 ≤ p.toNat) :
    numRead p.toNat = BitVec.ofNat 64 (2 ^ 63 - 1) := by
  have hclamp : clamp (p.toNat : ℤ) = ((2 ^ 63 - 1 : ℕ) : ℤ) := by
    simp only [clamp]
    omega
  rw [numRead, hclamp, BitVec.ofInt_natCast]

theorem setWidth_numRead_iff (p : BitVec 64) :
    (numRead p.toNat).setWidth 32 = p.setWidth 32 ↔
      p.toNat < 2 ^ 63 ∨ p.setWidth 32 = BitVec.allOnes 32 := by
  by_cases h : p.toNat < 2 ^ 63
  · simp only [numRead_toNat h, h, true_or]
  · have hones : (BitVec.ofNat 64 (2 ^ 63 - 1)).setWidth 32 = BitVec.allOnes 32 := by
      decide +kernel
    rw [numRead_of_le (not_lt.mp h), hones, eq_comm]
    simp only [h, false_or]

/-! ## Decoding the option of the slaves -/

theorem stops_comma (s : List Char) : Stops (',' :: s) := stops_cons (by decide)

theorem readParam_nil (commaMsg valueMsg : String) (deadline percent : Bool) :
    readParam commaMsg valueMsg deadline percent [] = (none, .ok ([], false)) := rfl

theorem readParam_plain (commaMsg valueMsg : String) (percent : Bool) (n : ℕ) :
    readParam commaMsg valueMsg false percent (',' :: natText n) =
      (some (numRead n), .ok ([], false)) := by
  have hread := strtol_natText n stops_nil
  rw [List.append_nil] at hread
  simp [readParam, hread, numRead]

theorem readParam_usec (commaMsg valueMsg : String) (percent : Bool) (n : ℕ) (rest : List Char) :
    readParam commaMsg valueMsg true percent (',' :: (natText n ++ 'u' :: rest)) =
      (some (numRead n), .ok (rest, false)) := by
  have hstops : Stops ('u' :: rest) := stops_cons (by decide)
  simp [readParam, strtol_natText n hstops, applyUnit, numRead]

/-- Digits at the end of the option are a number of seconds. -/
theorem readParam_digits (commaMsg valueMsg : String) (percent : Bool) {ds : List Char}
    (hne : ds ≠ []) (hds : ∀ c ∈ ds, c.isDigit = true) :
    readParam commaMsg valueMsg true percent (',' :: ds) =
      (some (numRead (Numeral.value 10 ds) * 1000000), .ok ([], false)) := by
  have hread := strtol_digits hne hds stops_nil
  rw [List.append_nil] at hread
  simp [readParam, hread, applyUnit, numRead]

theorem decodeopt_policy (st : Params) (z : BitVec 32) (s : List Char) :
    decodeopt st (some (intText z.toInt ++ ',' :: s)) =
      decodeParams { st with policy := z } (',' :: s) := by
  rw [decodeopt, decodePolicy_intText z (stops_comma s)]

theorem decodeopt_plain {z : BitVec 32} (hz : z ≠ schedDeadline) (n : ℕ) :
    decodeopt initial (some (intText z.toInt ++ ',' :: natText n)) =
      (⟨z, numRead n, 0, 0⟩, none) := by
  rw [decodeopt_policy, decodeParams]
  simp only [hz, decide_false, readParam_plain, readParam_nil]
  rfl

theorem decodeopt_deadline (n₀ n₁ : ℕ) {s : List Char} {v : BitVec 64}
    (hs : ∀ commaMsg valueMsg, readParam commaMsg valueMsg true false (',' :: s) =
      (some v, .ok ([], false))) :
    decodeopt initial (some (intText schedDeadline.toInt ++ ',' :: (natText n₀ ++ 'u' :: ',' ::
      (natText n₁ ++ 'u' :: ',' :: s)))) =
      (⟨schedDeadline, numRead n₀, numRead n₁, v⟩, none) := by
  rw [decodeopt_policy, decodeParams]
  simp only [decide_true, readParam_usec, hs]
  rfl

/-- Two numbers are accepted whatever they are. -/
theorem decodeopt_two (z w : BitVec 32) :
    ∃ p0, decodeopt initial (some (intText z.toInt ++ ',' :: intText w.toInt)) =
      (⟨z, p0, 0, 0⟩, none) := by
  have hread := strtol_intText w.toInt stops_nil
  rw [List.append_nil] at hread
  have hparam : ∀ commaMsg valueMsg deadline, ∃ v,
      readParam commaMsg valueMsg deadline true (',' :: intText w.toInt) =
        (some v, .ok ([], false)) := by
    intro commaMsg valueMsg deadline
    cases deadline <;> exact ⟨_, by simp [readParam, hread, applyUnit]; rfl⟩
  rw [decodeopt_policy, decodeParams]
  obtain ⟨v, hv⟩ := hparam "'%s': comma expected (1)\n" "'%s': unrecognized param value (1)\n"
    (decide (z = schedDeadline))
  refine ⟨v, ?_⟩
  simp only [hv, readParam_nil]
  rfl

/-! ## The text in the buffer -/

theorem length_natText_le_twenty (p : BitVec 64) : (natText p.toNat).length ≤ 20 :=
  length_natText_le (by decide) (p.isLt.trans (by decide))

/-- The option for a deadline is cut off in its last parameter, if at all. -/
theorem snprintf_deadline (st : Params) :
    snprintf 64 (intText schedDeadline.toInt ++ ',' :: natText st.p0.toNat ++ ['u', ','] ++
      natText st.p1.toNat ++ ['u', ','] ++ natText st.p2.toNat ++ ['u']) =
    intText schedDeadline.toInt ++ ',' :: (natText st.p0.toNat ++ 'u' :: ',' ::
      (natText st.p1.toNat ++ 'u' :: ',' :: (natText st.p2.toNat ++ ['u']).take
        (57 - (natText st.p0.toNat).length - (natText st.p1.toNat).length))) := by
  have h₀ := length_natText_le_twenty st.p0
  have h₁ := length_natText_le_twenty st.p1
  have hpolicy : intText schedDeadline.toInt = ['6'] := by decide +kernel
  obtain ⟨k, hk⟩ : ∃ k, k = 57 - (natText st.p0.toNat).length - (natText st.p1.toNat).length :=
    ⟨_, rfl⟩
  obtain ⟨front, hfront⟩ : ∃ front, front = ['6', ','] ++ natText st.p0.toNat ++ ['u', ','] ++
      natText st.p1.toNat ++ ['u', ','] := ⟨_, rfl⟩
  have hsize : 64 - 1 = front.length + k := by
    simp only [hfront, List.length_append, List.length_cons, List.length_nil]
    omega
  calc
    _ = (front ++ (natText st.p2.toNat ++ ['u'])).take (64 - 1) := by
      simp [snprintf, hfront, hpolicy]
    _ = front ++ (natText st.p2.toNat ++ ['u']).take k := by
      rw [hsize, List.take_length_add_append]
    _ = _ := by simp [hfront, hpolicy, hk]

/-- What remains of the last parameter, as a slave reads it. -/
theorem readParam_period (st : Params) (commaMsg valueMsg : String) :
    readParam commaMsg valueMsg true false (',' :: (natText st.p2.toNat ++ ['u']).take
      (57 - (natText st.p0.toNat).length - (natText st.p1.toNat).length)) =
      (some (periodRead st), .ok ([], false)) := by
  have h₀ := length_natText_le_twenty st.p0
  have h₁ := length_natText_le_twenty st.p1
  obtain ⟨k, hk⟩ : ∃ k, k = 57 - (natText st.p0.toNat).length - (natText st.p1.toNat).length :=
    ⟨_, rfl⟩
  rw [← hk, periodRead]
  split_ifs with hfits
  · have hall : (natText st.p2.toNat ++ ['u']).length ≤ k := by
      simp only [digitCount, List.length_append, List.length_singleton] at hfits ⊢
      omega
    rw [List.take_of_length_le hall, readParam_usec]
  · have hcut : k ≤ (natText st.p2.toNat).length := by
      simp only [digitCount] at hfits
      omega
    have hlost : digitCount st - 57 = (natText st.p2.toNat).length - k := by
      simp only [digitCount]
      omega
    have hne : (natText st.p2.toNat).take k ≠ [] := by
      rw [ne_eq, List.take_eq_nil_iff, not_or]
      exact ⟨by omega, natText_ne_nil _⟩
    rw [List.take_append_of_le_length hcut, readParam_digits _ _ _ hne fun c hc ↦
      isDigit_of_mem_natText (List.mem_of_mem_take hc), natText,
      Numeral.value_take_text (by decide) (by decide), hlost]
    rfl

theorem length_intText_toInt (z : BitVec 32) : (intText z.toInt).length ≤ 11 := by
  have hle := BitVec.le_toInt z
  have hlt := BitVec.toInt_lt (x := z)
  exact length_intText_le (by decide) (by omega)

theorem kind_eq_idle {policy : BitVec 32} (h : kind policy = .idle) : policy = schedIdle := by
  simp only [kind] at h
  split_ifs at h with hidle
  exact hidle

theorem kind_eq_deadline_iff {policy : BitVec 32} :
    kind policy = .deadline ↔ policy = schedDeadline := by
  constructor
  · intro h
    simp only [kind] at h
    split_ifs at h with _ _ _ hdeadline
    exact hdeadline
  · rintro rfl
    decide

/-- What a slave decodes, but for an unknown policy. -/
def slaveRead (st : Params) : Params :=
  match kind st.policy with
  | .idle => ⟨st.policy, 0, 0, 0⟩
  | .deadline => ⟨st.policy, numRead st.p0.toNat, numRead st.p1.toNat, periodRead st⟩
  | _ => ⟨st.policy, numRead st.p0.toNat, 0, 0⟩

theorem decodeopt_slaveOpt (st : Params) (masterNode masterPort : BitVec 32)
    (hknown : kind st.policy ≠ .unknown) :
    decodeopt initial (some (slaveOpt st masterNode masterPort)) = (slaveRead st, none) := by
  have hplain : st.policy ≠ schedDeadline →
      decodeopt initial (some (snprintf 64 (intText st.policy.toInt ++ ',' ::
        natText st.p0.toNat))) = (⟨st.policy, numRead st.p0.toNat, 0, 0⟩, none) := by
    intro hpolicy
    have h₀ := length_natText_le_twenty st.p0
    have hp := length_intText_toInt st.policy
    rw [snprintf_of_length, decodeopt_plain hpolicy]
    simp only [List.length_append, List.length_cons]
    omega
  rw [slaveOpt, encodeopt, slaveRead]
  cases hkind : kind st.policy with
  | idle =>
      rw [kind_eq_idle hkind]
      simp only
      decide +kernel
  | nice | priority =>
      exact hplain fun h ↦ by simp [kind_eq_deadline_iff.mpr h] at hkind
  | deadline =>
      rw [kind_eq_deadline_iff.mp hkind]
      simp only
      rw [snprintf_deadline, decodeopt_deadline _ _ (readParam_period st)]
  | unknown => exact absurd hkind hknown

theorem setsched_slaveRead_iff (st : Params) (masterNode : BitVec 32)
    (hknown : kind st.policy ≠ .unknown) :
    setsched (slaveRead st) = setsched st ↔ Carried st masterNode := by
  cases hkind : kind st.policy with
  | idle => simp [setsched, slaveRead, Carried, hkind]
  | nice | priority =>
      simp only [setsched, slaveRead, Carried, hkind, SchedAttr.mk.injEq, true_and, and_true]
      exact setWidth_numRead_iff st.p0
  | deadline =>
      simp only [setsched, slaveRead, Carried, hkind, SchedAttr.mk.injEq, true_and]
  | unknown => exact absurd hkind hknown

theorem setsched_policy (st : Params) : (setsched st).policy = st.policy := by
  rw [setsched]
  cases kind st.policy <;> rfl

/-- For every option the master accepts: the option it makes for the slaves is accepted there
and requests the same attributes, if and only if the parameters are carried over. -/
theorem slave_same_attr_iff (st₀ : Params) (opt : List Char) (masterNode masterPort : BitVec 32) :
    ∀ st, decodeopt st₀ (some opt) = (st, none) →
      ((∃ st', decodeopt initial (some (slaveOpt st masterNode masterPort)) = (st', none) ∧
        setsched st' = setsched st) ↔ Carried st masterNode) := by
  intro st _
  by_cases hkind : kind st.policy = .unknown
  · -- the slave finds the node of the master in place of the policy
    have hnode := length_intText_toInt masterNode
    have hport := length_intText_toInt masterPort
    obtain ⟨p0, hdecode⟩ := decodeopt_two masterNode masterPort
    have hopt : slaveOpt st masterNode masterPort =
        intText masterNode.toInt ++ ',' :: intText masterPort.toInt := by
      rw [slaveOpt, encodeopt, hkind]
      refine snprintf_of_length ?_
      simp only [List.length_append, List.length_cons]
      omega
    rw [hopt, hdecode, Carried, hkind]
    constructor
    · rintro ⟨st', hst', hattr⟩
      cases hst'
      have hpolicy := congrArg SchedAttr.policy hattr
      rwa [setsched_policy, setsched_policy] at hpolicy
    · rintro rfl
      exact ⟨_, rfl, by simp [setsched, hkind]⟩
  · rw [decodeopt_slaveOpt st masterNode masterPort hkind,
      ← setsched_slaveRead_iff st masterNode hkind]
    constructor
    · rintro ⟨st', hst', hattr⟩
      cases hst'
      exact hattr
    · exact fun hattr ↦ ⟨_, rfl, hattr⟩

theorem slave_same_attr_nice : ∃ st,
    decodeopt initial (some ['O', 'T', 'H', 'E', 'R', ',', '5']) = (st, none) ∧
    ∃ st', decodeopt initial (some (slaveOpt st 1 7)) = (st', none) ∧
      setsched st' = setsched st := by
  have hdecode : decodeopt initial (some ['O', 'T', 'H', 'E', 'R', ',', '5']) =
      (⟨schedOther, 5, 0, 0⟩, none) := by decide +kernel
  refine ⟨_, hdecode, (slave_same_attr_iff _ _ 1 7 _ hdecode).mpr (.inl ?_)⟩
  decide +kernel

/-- A nice value of -5 is printed as an unsigned number, which no long can hold; the slaves
run with -1. -/
theorem negativeNice_lost : ∃ st st',
    decodeopt initial (some ['O', 'T', 'H', 'E', 'R', ',', '-', '5']) = (st, none) ∧
    decodeopt initial (some (slaveOpt st 1 7)) = (st', none) ∧
    (setsched st).nice.toInt = -5 ∧ (setsched st').nice.toInt = -1 := by
  refine ⟨⟨schedOther, -5, 0, 0⟩, ⟨schedOther, 2 ^ 63 - 1, 0, 0⟩, ?_, ?_, ?_, ?_⟩ <;>
    decide +kernel

end AxiomApps.Run.Sched
