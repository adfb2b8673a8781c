import AxiomApps.Lib.Decimal
import AxiomApps.Run.Output

/-!
# The node set of an application

The master passes the mask of the nodes of a run to the slaves with the option `-n`. A slave
puts it, and the number of nodes, into the environment of the application, where the library
finds them. A slave leaves the environment alone if it seems to hold the variables already.
-/

namespace AxiomApps.Run.NodeSet

open Decimal Numeral
open Output (maxNumNodes)

/-! ## The option `-n` -/

/-- `ALL_NODES`; `MAX_NUM_NODES` is `MAX_NODES_SUPPORTED`. -/
def allNodes : ℕ := 0xfffffffffffffffe

def toInt32 (z : ℤ) : ℤ := (BitVec.ofInt 32 z).toInt

/-- `sscanf` with `%d`. -/
def scanInt (s : List Char) : Option (ℤ × List Char) :=
  (strtol s).map fun r ↦ (toInt32 r.1, r.2)

/-- `sscanf` with `%d-%d`, if both numbers are there. -/
def scanRange (s : List Char) : Option (ℤ × ℤ) :=
  match scanInt s with
  | some (a, '-' :: rest) => (scanInt rest).map fun r ↦ (a, r.1)
  | _ => none

/-- The program prints its usage and exits, or C leaves a shift undefined. -/
inductive Fault
  | usage
  | shift
  deriving DecidableEq, Repr

/-- `x << k` for an `uint64_t` -/
def shl64 (x k : ℕ) : Except Fault ℕ :=
  if k < 64 then .ok (x * 2 ^ k % 2 ^ 64) else .error .shift

/-- One item of the list: a range or a number. -/
def decodeItemShifting (r : ℕ) (s : List Char) : Except Fault ℕ :=
  if '-' ∈ s then
    match scanRange s with
    | none => .error .usage
    | some (a, b) =>
        if a < 1 ∨ b < a ∨ maxNumNodes < b then .error .usage
        else if b - a + 1 = maxNumNodes then .ok allNodes
        else do
          let n ← shl64 1 (b - a + 1).toNat
          let m ← shl64 (n - 1) a.toNat
          return r ||| m
  else
    match scanInt s with
    | none => .error .usage
    | some (a, _) =>
        if a < 1 ∨ maxNumNodes < a then .error .usage
        else do
          let m ← shl64 1 a.toNat
          return r ||| m

/-- The items `strtok` finds between commas. -/
def strtok (arg : List Char) : List (List Char) := (arg.splitOn ',').filter (· ≠ [])

/-- `decode_node_arg` with shifts that fail. -/
def decodeNodeArgShifting (arg : List Char) : Except Fault ℕ :=
  if ['0', 'x'].isPrefixOf arg then (scanHex arg).elim (.error .usage) .ok
  else (strtok arg).foldlM decodeItemShifting 0

/-- The mask, where there is one. -/
def decodeNodeArg (arg : List Char) : Option ℕ := (decodeNodeArgShifting arg).toOption

/-- What the master passes with `-n`. -/
def nodeArg (nodes : ℕ) : List Char := snprintf 64 (['0', 'x'] ++ hexText nodes)

/-! ## The environment -/

def axiomRun : List Char := ['A', 'X', 'I', 'O', 'M', '_', 'R', 'U', 'N']

def axiomNodes : List Char := ['A', 'X', 'I', 'O', 'M', '_', 'N', 'O', 'D', 'E', 'S']

/-- The loop that counts the nodes. -/
def countNodes (n : ℕ) : ℕ :=
  if n = 0 then 0 else countNodes (n / 2) + if n % 2 = 1 then 1 else 0

/-- The string is taken for one of the two variables. -/
def already (v : List Char) : Bool :=
  v.contains '=' && (axiomRun.isPrefixOf v || axiomNodes.isPrefixOf v)

/-- `keeps` says which names the regular expression matches as a whole. -/
def prepareEnv (keeps : List Char → Bool) (environ : List (List Char)) (slave : Bool)
    (nodes : ℕ) : List (List Char) :=
  (environ.filter fun v ↦ v.contains '=' && keeps (v.takeWhile (· ≠ '='))) ++
    if slave && !environ.any already then
      [snprintf 64 (axiomRun ++ ['='] ++ intText (countNodes nodes)),
        snprintf 64 (axiomNodes ++ ['=', '0', 'x'] ++ hexText nodes)]
    else []

def getenv (env : List (List Char)) (name : List Char) : Option (List Char) :=
  (env.find? fun v ↦ (name ++ ['=']).isPrefixOf v).map fun v ↦ v.drop (name.length + 1)

/-! ## The library -/

def axrunGetNodes (env : List (List Char)) : ℕ :=
  match getenv env axiomNodes with
  | none => 0
  | some s => strtoull s

def axrunGetNumNodes (env : List (List Char)) : ℤ :=
  match getenv env axiomRun with
  | none => -1
  | some s => toInt32 (strtoull s)

/-! ## Shifts

The decoder never shifts by 64 or more, so that its only fault is a wrong argument. -/

def decodeItem (r : ℕ) (s : List Char) : Option ℕ := (decodeItemShifting r s).toOption

theorem toOption_elim {α : Type*} (o : Option α) :
    (o.elim (.error .usage) .ok : Except Fault α).toOption = o := by
  cases o <;> rfl

theorem shl64_one {k : ℕ} (h : k < 64) : shl64 1 k = .ok (2 ^ k) := by
  have hlt : 2 ^ k < 2 ^ 64 := Nat.pow_lt_pow_right (by decide) h
  rw [shl64, if_pos h, one_mul, Nat.mod_eq_of_lt hlt]

theorem maxNumNodes_eq : (maxNumNodes : ℤ) = 63 := rfl

variable {r : ℕ} {s arg : List Char}

theorem decodeItemShifting_range (h : '-' ∈ s) :
    decodeItemShifting r s = ((scanRange s).bind fun p ↦
      if p.1 < 1 ∨ p.2 < p.1 ∨ maxNumNodes < p.2 then none
      else if p.2 - p.1 + 1 = maxNumNodes then some allNodes
      else some (r ||| (2 ^ (p.2 - p.1 + 1).toNat - 1) * 2 ^ p.1.toNat % 2 ^ 64)).elim
        (.error .usage) .ok := by
  have hmax := maxNumNodes_eq
  rw [decodeItemShifting, if_pos h]
  cases scanRange s with
  | none => rfl
  | some p =>
      obtain ⟨a, b⟩ := p
      dsimp only [Option.bind_some]
      split_ifs with hbad hall
      · rfl
      · rfl
      · have hone : (b - a + 1).toNat < 64 := by omega
        have hshift : a.toNat < 64 := by omega
        rw [shl64_one hone]
        simp only [shl64, hshift, if_true]
        rfl

theorem decodeItemShifting_number (h : '-' ∉ s) :
    decodeItemShifting r s = ((scanInt s).bind fun p ↦
      if p.1 < 1 ∨ maxNumNodes < p.1 then none else some (r ||| 2 ^ p.1.toNat)).elim
        (.error .usage) .ok := by
  have hmax := maxNumNodes_eq
  rw [decodeItemShifting, if_neg h]
  cases scanInt s with
  | none => rfl
  | some p =>
      dsimp only [Option.bind_some]
      split_ifs with hbad
      · rfl
      · have hshift : p.1.toNat < 64 := by omega
        rw [shl64_one hshift]
        rfl

theorem decodeItem_range (h : '-' ∈ s) :
    decodeItem r s = (scanRange s).bind fun p ↦
      if p.1 < 1 ∨ p.2 < p.1 ∨ maxNumNodes < p.2 then none
      else if p.2 - p.1 + 1 = maxNumNodes then some allNodes
      else some (r ||| (2 ^ (p.2 - p.1 + 1).toNat - 1) * 2 ^ p.1.toNat % 2 ^ 64) := by
  rw [decodeItem, decodeItemShifting_range h, toOption_elim]

theorem decodeItem_number (h : '-' ∉ s) :
    decodeItem r s = (scanInt s).bind fun p ↦
      if p.1 < 1 ∨ maxNumNodes < p.1 then none else some (r ||| 2 ^ p.1.toNat) := by
  rw [decodeItem, decodeItemShifting_number h, toOption_elim]

theorem foldlM_decodeItemShifting (items : List (List Char)) (r : ℕ) :
    items.foldlM decodeItemShifting r =
      (items.foldlM decodeItem r).elim (.error .usage) .ok := by
  have hitem : ∀ r s, decodeItemShifting r s = (decodeItem r s).elim (.error .usage) .ok := by
    intro r s
    by_cases h : '-' ∈ s
    · rw [decodeItem_range h, decodeItemShifting_range h]
    · rw [decodeItem_number h, decodeItemShifting_number h]
  induction items generalizing r with
  | nil => rfl
  | cons s items ih =>
      rw [List.foldlM_cons, List.foldlM_cons, hitem]
      cases decodeItem r s with
      | none => rfl
      | some r' => exact ih r'

theorem decodeNodeArg_hex (h : ['0', 'x'].isPrefixOf arg = true) :
    decodeNodeArg arg = scanHex arg := by
  rw [decodeNodeArg, decodeNodeArgShifting, if_pos h, toOption_elim]

theorem decodeNodeArg_list (h : ¬ ['0', 'x'].isPrefixOf arg = true) :
    decodeNodeArg arg = (strtok arg).foldlM decodeItem 0 := by
  rw [decodeNodeArg, decodeNodeArgShifting, if_neg h, foldlM_decodeItemShifting, toOption_elim]

/-- No argument makes the decoder shift by 64 or more. -/
theorem decodeNodeArgShifting_eq (arg : List Char) :
    decodeNodeArgShifting arg = (decodeNodeArg arg).elim (.error .usage) .ok := by
  by_cases h : ['0', 'x'].isPrefixOf arg = true
  · rw [decodeNodeArg_hex h, decodeNodeArgShifting, if_pos h]
  · rw [decodeNodeArg_list h, decodeNodeArgShifting, if_neg h, foldlM_decodeItemShifting]

/-! ## The mask on its way -/

variable {nodes : ℕ}

theorem countNodes_succ (n : ℕ) : countNodes n = countNodes (n / 2) + n % 2 := by
  rw [countNodes]
  split_ifs with hzero hodd
  · simp [hzero, countNodes]
  · rw [hodd]
  · omega

/-- The loop counts the bits that are set. -/
theorem countNodes_eq {k : ℕ} (h : nodes < 2 ^ k) :
    countNodes nodes = (List.range k).countP nodes.testBit := by
  induction k generalizing nodes with
  | zero =>
      obtain rfl : nodes = 0 := by simpa using h
      simp [countNodes]
  | succ k ih =>
      have hhalf : nodes / 2 < 2 ^ k := by omega
      have hbits : nodes.testBit ∘ Nat.succ = (nodes / 2).testBit :=
        funext fun i ↦ Nat.testBit_succ nodes i
      rw [countNodes_succ, ih hhalf, List.range_succ_eq_map, List.countP_cons, List.countP_map,
        hbits, Nat.testBit_zero]
      rcases Nat.mod_two_eq_zero_or_one nodes with hmod | hmod <;> simp [hmod]

theorem countNodes_pos (hpos : nodes ≠ 0) : 0 < countNodes nodes := by
  induction nodes using Nat.strong_induction_on with
  | _ n ih =>
      rw [countNodes_succ]
      by_cases hhalf : n / 2 = 0
      · omega
      · exact Nat.add_pos_left (ih (n / 2) (by omega) hhalf) _

theorem countNodes_le (h : nodes < 2 ^ 64) : countNodes nodes ≤ 64 := by
  rw [countNodes_eq h]
  exact List.countP_le_length.trans List.length_range.le

theorem toInt32_natCast {n : ℕ} (h : n < 2 ^ 31) : toInt32 n = n := by
  rw [toInt32, BitVec.toInt_ofInt]
  exact Int.bmod_eq_of_le (by omega) (by omega)

theorem length_hexText (h : nodes < 2 ^ 64) : (hexText nodes).length ≤ 16 :=
  length_text_le (by decide) (by decide) (by simpa using h)

theorem decodeNodeArg_hexText (h : nodes < 2 ^ 64) :
    decodeNodeArg ('0' :: 'x' :: hexText nodes) = some nodes := by
  rw [decodeNodeArg_hex (by simp [List.isPrefixOf])]
  exact scanHex_hexText h

/-- A slave reads back the mask the master has passed to it. -/
theorem decodeNodeArg_nodeArg (h : nodes < 2 ^ 64) :
    decodeNodeArg (nodeArg nodes) = some nodes := by
  have hlen := length_hexText h
  have harg : nodeArg nodes = '0' :: 'x' :: hexText nodes :=
    snprintf_of_length (by simp only [List.length_append, List.length_cons, List.length_nil]; omega)
  rw [harg]
  exact decodeNodeArg_hexText h

/-! ## The environment of the application -/

section Environment

variable {keeps : List Char → Bool} {environ : List (List Char)}

theorem getenv_append_of_not_mem {env env' : List (List Char)} {name : List Char}
    (h : ∀ v ∈ env, ¬ name ++ ['='] <+: v) : getenv (env ++ env') name = getenv env' name := by
  have hnone : env.find? (fun v ↦ (name ++ ['=']).isPrefixOf v) = none := by
    rw [List.find?_eq_none]
    intro v hv
    rw [ List.isPrefixOf_iff_prefix]
    exact h v hv
  rw [getenv, List.find?_append, hnone, Option.none_or, getenv]

theorem any_already : environ.any already = true ↔
    ∃ v ∈ environ, '=' ∈ v ∧ (axiomRun <+: v ∨ axiomNodes <+: v) := by
  simp [already]

/-- The strings a slave adds. -/
theorem prepareEnv_eq (h : nodes < 2 ^ 64) (hnone : environ.any already = false) :
    prepareEnv keeps environ true nodes =
      (environ.filter fun v ↦ v.contains '=' && keeps (v.takeWhile (· ≠ '='))) ++
        [axiomRun ++ '=' :: natText (countNodes nodes),
          axiomNodes ++ '=' :: '0' :: 'x' :: hexText nodes] := by
  have hlen := length_hexText h
  have hcount := countNodes_le h
  have hdigits := length_natText_le (n := countNodes nodes) (k := 2) (by decide) (by omega)
  rw [prepareEnv, hnone, intText_natCast, snprintf_of_length, snprintf_of_length]
  · simp
  · simp only [List.length_append, axiomNodes, List.length_cons, List.length_nil]
    omega
  · simp only [List.length_append, axiomRun, List.length_cons, List.length_nil]
    omega

theorem getenv_prepareEnv (keeps : List Char → Bool) (h : nodes < 2 ^ 64)
    (hnone : environ.any already = false)
    (hrun : ∀ v ∈ environ, ¬ axiomRun ++ ['='] <+: v)
    (hnodes : ∀ v ∈ environ, ¬ axiomNodes ++ ['='] <+: v) :
    getenv (prepareEnv keeps environ true nodes) axiomRun = some (natText (countNodes nodes)) ∧
      getenv (prepareEnv keeps environ true nodes) axiomNodes =
        some ('0' :: 'x' :: hexText nodes) := by
  rw [prepareEnv_eq h hnone]
  refine ⟨?_, ?_⟩
  · rw [getenv_append_of_not_mem fun v hv ↦ hrun v (List.mem_of_mem_filter hv)]
    simp [getenv, axiomRun]
  · rw [getenv_append_of_not_mem fun v hv ↦ hnodes v (List.mem_of_mem_filter hv)]
    simp [getenv, axiomNodes, axiomRun]

/-- A slave that takes a string for one of the variables adds none. -/
theorem axrunGetNodes_of_already (hsome : environ.any already = true)
    (hnodes : ∀ v ∈ environ, ¬ axiomNodes ++ ['='] <+: v) :
    axrunGetNodes (prepareEnv keeps environ true nodes) = 0 := by
  have hget : getenv (prepareEnv keeps environ true nodes) axiomNodes = none := by
    rw [prepareEnv, hsome, getenv_append_of_not_mem fun v hv ↦
      hnodes v (List.mem_of_mem_filter hv)]
    rfl
  rw [axrunGetNodes, hget]

end Environment

/-- An application started on a set of nodes finds just this set with the library, in an
environment without variables named `AXIOM_RUN` or `AXIOM_NODES`, unless the name of some
variable begins so. -/
theorem application_sees_nodes_iff (keeps : List Char → Bool) {environ : List (List Char)}
    (hrun : ∀ v ∈ environ, ¬ axiomRun ++ ['='] <+: v)
    (hnodes : ∀ v ∈ environ, ¬ axiomNodes ++ ['='] <+: v) {nodes : ℕ} (hpos : nodes ≠ 0)
    (h : nodes < 2 ^ 64) :
    (∃ r, decodeNodeArg (nodeArg nodes) = some r ∧
      axrunGetNodes (prepareEnv keeps environ true r) = nodes ∧
      axrunGetNumNodes (prepareEnv keeps environ true r) =
        (List.range 64).countP nodes.testBit) ↔
      ¬ ∃ v ∈ environ, '=' ∈ v ∧ (axiomRun <+: v ∨ axiomNodes <+: v) := by
  rw [← any_already, Bool.not_eq_true]
  constructor
  · rintro ⟨r, -, hget, -⟩
    by_contra hsome
    rw [axrunGetNodes_of_already (Bool.not_eq_false _ ▸ hsome) hnodes] at hget
    exact hpos hget.symm
  · intro hnone
    obtain ⟨hgetRun, hgetNodes⟩ := getenv_prepareEnv keeps h hnone hrun hnodes
    refine ⟨nodes, decodeNodeArg_nodeArg h, ?_, ?_⟩
    · rw [axrunGetNodes, hgetNodes]
      exact strtoull_hexText h
    · have hle := countNodes_le h
      rw [axrunGetNumNodes, hgetRun]
      simp only
      rw [natText, strtoull_decimal (countNodes_pos hpos).ne' (by omega),
        toInt32_natCast (by omega), countNodes_eq h]

def twoVariables : List (List Char) := [['P', '=', '/'], ['A', 'X', 'I', 'O', 'M', '=']]

/-- Nodes 1 and 3. -/
theorem application_sees_nodes_two :
    axrunGetNodes (prepareEnv (fun _ ↦ true) twoVariables true 10) = 10 ∧
    axrunGetNumNodes (prepareEnv (fun _ ↦ true) twoVariables true 10) = 2 := by
  obtain ⟨r, hr, hnodes, hnum⟩ := (@application_sees_nodes_iff (fun _ ↦ true) twoVariables
    (by decide) (by decide) 10 (by decide) (by decide)).mpr (by decide)
  obtain rfl : 10 = r := Option.some.inj ((decodeNodeArg_nodeArg (by decide)).symm.trans hr)
  exact ⟨hnodes, hnum⟩

/-- A variable `AXIOM_RUN_DIR`: the application finds no nodes. -/
theorem nodes_lost_runDir :
    ∃ environ, (∀ v ∈ environ, ¬ axiomRun ++ ['='] <+: v) ∧
      (∀ v ∈ environ, ¬ axiomNodes ++ ['='] <+: v) ∧
      environ = [axiomRun ++ ['_', 'D', 'I', 'R', '=', '/']] ∧
      decodeNodeArg (nodeArg 10) = some 10 ∧
      axrunGetNodes (prepareEnv (fun _ ↦ true) environ true 10) = 0 ∧
      axrunGetNumNodes (prepareEnv (fun _ ↦ true) environ true 10) = -1 :=
  ⟨_, by decide, by decide, rfl, decodeNodeArg_nodeArg (by decide), by decide, by decide⟩

end AxiomApps.Run.NodeSet
