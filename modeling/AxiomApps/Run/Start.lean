import AxiomApps.Run.Barrier
import AxiomApps.Run.NodeList

/-!
# Starting an application

`start` goes over the mask of the nodes twice. It has `axiom-init` execute a program on each
node and stops at the first that fails; then it tells the slaves to fork their children. The
second pass is made in any case, and over the whole mask.

Which children run under `gdbserver` is decided by `start` in a run without services and by
the slaves otherwise, from the mask of the option `-g`.
-/

namespace AxiomApps.Run.Start

open Barrier (Command)
open Decimal Numeral
open NodeSet (decodeNodeArg toInt32)
open Output (maxNumNodes)

/-- What `CMD_START` uses of `header_t`. -/
structure Header where
  command : Command
  magic : ℤ
  deriving DecidableEq, Repr

/-- What `axinit_execvpe` is to execute; the file is the application or `axiom-run`. -/
inductive Program
  | gdbserver
  | file
  deriving DecidableEq, Repr

inductive Act
  | execvpe (node : ℕ) (program : Program)
  | send (node : ℕ) (m : Header)
  deriving DecidableEq, Repr

def programOf (gdb : Bool) : Program := if gdb then .gdbserver else .file

/-- The first loop of `start`, with the result of the last `axinit_execvpe`. -/
def execLoop (ok : ℕ → Program → Bool) (node nodes gdbNodes : ℕ) : List Act × Bool :=
  if nodes = 0 then ([], true)
  else if nodes.testBit 0 then
    let program := programOf (gdbNodes.testBit 0)
    if ok node program then
      let r := execLoop ok (node + 1) (nodes / 2) (gdbNodes / 2)
      (.execvpe node program :: r.1, r.2)
    else ([.execvpe node program], false)
  else execLoop ok (node + 1) (nodes / 2) (gdbNodes / 2)

def notifyBarrier (magic : ℤ) (node : ℕ) : Act := .send node ⟨.start, magic⟩

/-- The second loop. -/
def notifyLoop (magic : ℤ) (node nodes : ℕ) : List Act :=
  if nodes = 0 then []
  else if nodes.testBit 0 then notifyBarrier magic node :: notifyLoop magic (node + 1) (nodes / 2)
  else notifyLoop magic (node + 1) (nodes / 2)

/-- What `start` does and whether it returns no error. -/
def start (ok : ℕ → Program → Bool) (nodes gdbNodes : ℕ) (magic : ℤ) : List Act × Bool :=
  let r := execLoop ok 0 nodes gdbNodes
  (r.1 ++ notifyLoop magic 0 nodes, r.2)

/-- The messages sent to the slave of a node. -/
def inbox (acts : List Act) (node : ℕ) : List Header :=
  acts.filterMap fun act ↦ match act with
    | .execvpe _ _ => none
    | .send v m => if v = node then some m else none

/-- `wait_on_barrier` returns, having received what is listed; none is an error of
`axiom_recv_raw`. -/
def waitOnBarrier (magic : ℤ) : List (Option Header) → Bool
  | [] => false
  | none :: rest => waitOnBarrier magic rest
  | some m :: rest =>
      if m.command ≠ .start then waitOnBarrier magic rest
      else if m.magic ≠ magic then waitOnBarrier magic rest
      else true

/-- The slave of a node has been told to fork. -/
def Told (magic : ℤ) (acts : List Act) (node : ℕ) : Prop :=
  waitOnBarrier magic ((inbox acts node).map some) = true

/-! ## The loops -/

theorem forall_testBit {n : ℕ} {P : ℕ → Prop} :
    (∀ i, n.testBit i = true → P i) ↔
      (n.testBit 0 = true → P 0) ∧ ∀ i, (n / 2).testBit i = true → P (i + 1) := by
  simp only [← Nat.testBit_succ]
  exact ⟨fun h ↦ ⟨h 0, fun i ↦ h (i + 1)⟩, fun h i ↦ Nat.casesOn i h.1 h.2⟩

theorem exists_testBit {n : ℕ} {P : ℕ → Prop} :
    (∃ i, n.testBit i = true ∧ P i) ↔
      n.testBit 0 = true ∧ P 0 ∨ ∃ i, (n / 2).testBit i = true ∧ P (i + 1) := by
  simp only [← Nat.testBit_succ]
  constructor
  · rintro ⟨_ | i, h⟩
    · exact .inl h
    · exact .inr ⟨i, h⟩
  · rintro (h | ⟨i, h⟩)
    · exact ⟨0, h⟩
    · exact ⟨i + 1, h⟩

variable {ok : ℕ → Program → Bool} {magic : ℤ}

theorem execLoop_ok (node nodes gdbNodes : ℕ) :
    (execLoop ok node nodes gdbNodes).2 = true ↔
      ∀ i, nodes.testBit i = true → ok (node + i) (programOf (gdbNodes.testBit i)) = true := by
  fun_induction execLoop ok node nodes gdbNodes with
  | case1 node gdbNodes => simp
  | case2 node nodes gdbNodes hne hbit program hok r ih =>
      rw [forall_testBit]
      simp only [hbit, Nat.add_zero, forall_true_left, Nat.testBit_succ,
        ← Nat.add_assoc, Nat.add_right_comm node _ 1]
      exact ⟨fun h ↦ ⟨hok, ih.mp h⟩, fun h ↦ ih.mpr h.2⟩
  | case3 node nodes gdbNodes hne hbit program hok =>
      rw [forall_testBit]
      simp only [hbit, Nat.add_zero, forall_true_left]
      exact ⟨nofun, fun h ↦ absurd h.1 hok⟩
  | case4 node nodes gdbNodes hne hbit ih =>
      rw [forall_testBit, ih]
      simp only [hbit, Bool.false_eq_true, false_imp_iff, true_and, Nat.testBit_succ,
        ← Nat.add_assoc, Nat.add_right_comm node _ 1]

theorem not_send_mem_execLoop (node nodes gdbNodes v : ℕ) (m : Header) :
    .send v m ∉ (execLoop ok node nodes gdbNodes).1 := by
  fun_induction execLoop ok node nodes gdbNodes with
  | case1 => simp
  | case2 node nodes gdbNodes hne hbit program hok r ih => simpa using ih
  | case3 => simp
  | case4 node nodes gdbNodes hne hbit ih => exact ih

/-- If all succeed, each node gets the program the mask of `-g` says. -/
theorem execvpe_mem_execLoop {node nodes gdbNodes : ℕ}
    (hok : (execLoop ok node nodes gdbNodes).2 = true) (v : ℕ) (p : Program) :
    .execvpe v p ∈ (execLoop ok node nodes gdbNodes).1 ↔
      ∃ i, nodes.testBit i = true ∧ v = node + i ∧ p = programOf (gdbNodes.testBit i) := by
  fun_induction execLoop ok node nodes gdbNodes with
  | case1 => simp
  | case2 node nodes gdbNodes hne hbit program hprogram r ih =>
      rw [exists_testBit, List.mem_cons, ih hok]
      simp only [hbit, Nat.add_zero, true_and, Act.execvpe.injEq, Nat.testBit_succ,
        ← Nat.add_assoc, Nat.add_right_comm node _ 1]
      rfl
  | case3 => cases hok
  | case4 node nodes gdbNodes hne hbit ih =>
      rw [exists_testBit, ih hok]
      simp only [hbit, Bool.false_eq_true, false_and, false_or, Nat.testBit_succ,
        ← Nat.add_assoc, Nat.add_right_comm node _ 1]

theorem mem_notifyLoop (node nodes : ℕ) (act : Act) :
    act ∈ notifyLoop magic node nodes ↔
      ∃ i, nodes.testBit i = true ∧ act = notifyBarrier magic (node + i) := by
  fun_induction notifyLoop magic node nodes with
  | case1 => simp
  | case2 node nodes hne hbit ih =>
      rw [exists_testBit, List.mem_cons, ih]
      simp only [hbit, Nat.add_zero, true_and, ← Nat.add_assoc, Nat.add_right_comm node _ 1]
  | case3 node nodes hne hbit ih =>
      rw [exists_testBit, ih]
      simp only [hbit, Bool.false_eq_true, false_and, false_or, ← Nat.add_assoc,
        Nat.add_right_comm node _ 1]

/-! ## Who is told to fork -/

theorem waitOnBarrier_iff (l : List Header) :
    waitOnBarrier magic (l.map some) = true ↔ ⟨.start, magic⟩ ∈ l := by
  induction l with
  | nil => simp [waitOnBarrier]
  | cons m l ih =>
      obtain ⟨command, value⟩ := m
      rw [List.map_cons, waitOnBarrier, List.mem_cons, Header.mk.injEq]
      split_ifs with hcommand hmagic
      · simp [ih, Ne.symm hcommand]
      · simp [ih, Ne.symm hmagic]
      · simp only [not_not] at hcommand hmagic
        simp [hcommand, hmagic]

theorem mem_inbox {acts : List Act} {node : ℕ} {m : Header} :
    m ∈ inbox acts node ↔ .send node m ∈ acts := by
  rw [inbox, List.mem_filterMap]
  constructor
  · rintro ⟨act, hact, hm⟩
    cases act with
    | execvpe v p => cases hm
    | send v m' =>
        simp only [Option.ite_none_right_eq_some, Option.some.injEq] at hm
        obtain ⟨rfl, rfl⟩ := hm
        exact hact
  · intro hsend
    exact ⟨_, hsend, by simp⟩

/-- Whatever `axinit_execvpe` returns, `start` tells the slaves of all nodes to fork. -/
theorem told_start (ok : ℕ → Program → Bool) (nodes gdbNodes : ℕ) (magic : ℤ) (node : ℕ) :
    Told magic (start ok nodes gdbNodes magic).1 node ↔ nodes.testBit node = true := by
  have hnone : .send node ⟨.start, magic⟩ ∉ (execLoop ok 0 nodes gdbNodes).1 :=
    not_send_mem_execLoop 0 nodes gdbNodes node _
  rw [Told, waitOnBarrier_iff, mem_inbox, start, List.mem_append, or_iff_right hnone,
    mem_notifyLoop]
  simp only [notifyBarrier, Act.send.injEq, and_true, Nat.zero_add, exists_eq_right']

/-- `start` tells slaves to fork only if all nodes are set up, just when all nodes are. -/
theorem start_all_or_none_iff (ok : ℕ → Program → Bool) (nodes gdbNodes : ℕ) (magic : ℤ) :
    ((∀ node, Told magic (start ok nodes gdbNodes magic).1 node →
        ∀ i, nodes.testBit i = true → ok i (programOf (gdbNodes.testBit i)) = true) ∧
      ((start ok nodes gdbNodes magic).2 = false →
        ∀ node, ¬ Told magic (start ok nodes gdbNodes magic).1 node)) ↔
      ∀ i, nodes.testBit i = true → ok i (programOf (gdbNodes.testBit i)) = true := by
  constructor
  · rintro ⟨honly, -⟩ i hi
    exact honly i ((told_start ok nodes gdbNodes magic i).mpr hi) i hi
  · intro hall
    refine ⟨fun _ _ ↦ hall, fun herr ↦ ?_⟩
    have hok : (start ok nodes gdbNodes magic).2 = true :=
      (execLoop_ok 0 nodes gdbNodes).mpr (by simpa using hall)
    rw [hok] at herr
    cases herr

/-- Nodes 1, 2 and 3, of which the second fails: `start` returns an error, and all three are
told to fork. -/
theorem told_though_failed :
    (start (fun v _ ↦ v ≠ 2) 14 0 1).2 = false ∧
    Told 1 (start (fun v _ ↦ v ≠ 2) 14 0 1).1 1 ∧ Told 1 (start (fun v _ ↦ v ≠ 2) 14 0 1).1 2 ∧
    Told 1 (start (fun v _ ↦ v ≠ 2) 14 0 1).1 3 := by
  refine ⟨?_, ?_, ?_, ?_⟩
  · rw [← Bool.not_eq_true]
    intro hok
    have htwo := (execLoop_ok 0 14 0).mp hok 2 (by decide)
    simp at htwo
  all_goals
    rw [told_start]
    decide

/-! ## The choice of gdbserver -/

def atoi (s : List Char) : ℤ := toInt32 (((strtol s).map Prod.fst).getD 0)

/-- The mask and the port, none where the program exits. -/
def decodeGdbArg (arg : List Char) : Option (ℕ × ℤ) :=
  if ':' ∈ arg then
    (decodeNodeArg (arg.takeWhile (· ≠ ':'))).map fun nodes ↦
      (nodes, atoi ((arg.dropWhile (· ≠ ':')).drop 1))
  else none

/-- What the master passes with `-g`. -/
def gdbArg (gdbNodes : ℕ) (port : ℤ) : List Char :=
  snprintf 64 (['0', 'x'] ++ hexText gdbNodes ++ [':'] ++ intText port)

/-- The mask and the port a slave is started with; without `-g` they are 0. -/
def slaveGdb (gdbNodes : ℕ) (port : ℤ) : Option (ℕ × ℤ) :=
  if gdbNodes = 0 then some (0, 0) else decodeGdbArg (gdbArg gdbNodes port)

/-- `1 << id` for an `int`, which C leaves undefined from 31 on: `wide` is what the platform
makes of it. -/
def shiftOne (wide : ℕ → BitVec 32) (id : ℕ) : BitVec 32 :=
  if id < 31 then 1#32 <<< id else wide id

/-- The slave's test, where the `int` is converted to an `uint64_t`. -/
def rungdb (wide : ℕ → BitVec 32) (gdbNodes id : ℕ) : Bool :=
  gdbNodes ≠ 0 && BitVec.ofNat 64 gdbNodes &&& (shiftOne wide id).signExtend 64 ≠ 0#64

theorem hexText_ne_colon {n : ℕ} {c : Char} (hc : c ∈ hexText n) : c ≠ ':' := by
  rintro rfl
  have hdigit := isDigitOf_of_mem_text (by decide) (by decide) hc
  exact absurd hdigit (by decide)

theorem length_intText {z : ℤ} (hlo : -2 ^ 31 ≤ z) (hhi : z < 2 ^ 31) :
    (intText z).length ≤ 11 :=
  length_intText_le (by decide) (by omega)

theorem atoi_intText {z : ℤ} (hlo : -2 ^ 31 ≤ z) (hhi : z < 2 ^ 31) : atoi (intText z) = z := by
  have hread := strtol_intText z stops_nil
  rw [List.append_nil] at hread
  rw [atoi, hread]
  exact NodeSet.toInt32_of_int hlo hhi

theorem decodeGdbArg_gdbArg {gdbNodes : ℕ} (h : gdbNodes < 2 ^ 64) {port : ℤ}
    (hlo : -2 ^ 31 ≤ port) (hhi : port < 2 ^ 31) :
    decodeGdbArg (gdbArg gdbNodes port) = some (gdbNodes, port) := by
  have hhex := NodeSet.length_hexText h
  have hport := length_intText hlo hhi
  have harg : gdbArg gdbNodes port =
      ('0' :: 'x' :: hexText gdbNodes) ++ ':' :: intText port := by
    rw [gdbArg, snprintf_of_length]
    · simp
    · simp only [List.length_append, List.length_cons, List.length_nil]
      omega
  have hpre : ∀ c ∈ '0' :: 'x' :: hexText gdbNodes, c ≠ ':' := by
    intro c hc
    rcases List.mem_cons.mp hc with rfl | hc
    · decide
    rcases List.mem_cons.mp hc with rfl | hc
    · decide
    exact hexText_ne_colon hc
  have htake : (gdbArg gdbNodes port).takeWhile (· ≠ ':') = '0' :: 'x' :: hexText gdbNodes := by
    rw [harg, List.takeWhile_append_of_pos (by simpa using hpre)]
    simp
  have hdrop : (gdbArg gdbNodes port).dropWhile (· ≠ ':') = ':' :: intText port := by
    rw [harg, List.dropWhile_append_of_pos (by simpa using hpre)]
    simp
  rw [decodeGdbArg, if_pos (by simp [harg]), htake,
    NodeSet.decodeNodeArg_hexText h, hdrop, List.drop_one, List.tail_cons,
    atoi_intText hlo hhi]
  rfl

/-- A slave reads back the mask the master was given. -/
theorem slaveGdb_fst {gdbNodes : ℕ} (h : gdbNodes < 2 ^ 64) {port : ℤ}
    (hlo : -2 ^ 31 ≤ port) (hhi : port < 2 ^ 31) :
    ∃ r, slaveGdb gdbNodes port = some r ∧ r.1 = gdbNodes := by
  rw [slaveGdb]
  split_ifs with hzero
  · exact ⟨_, rfl, hzero.symm⟩
  · exact ⟨_, decodeGdbArg_gdbArg h hlo hhi, rfl⟩

theorem and_ne_zero_iff {w : ℕ} (x y : BitVec w) :
    x &&& y ≠ 0#w ↔ ∃ i, x.getLsbD i = true ∧ y.getLsbD i = true := by
  constructor
  · intro hne
    by_contra hnone
    refine hne (BitVec.eq_of_getLsbD_eq fun i hi ↦ ?_)
    rw [BitVec.getLsbD_and, BitVec.getLsbD_zero, Bool.and_eq_false_iff]
    by_contra hboth
    simp only [not_or, Bool.not_eq_false] at hboth
    exact hnone ⟨i, hboth⟩
  · rintro ⟨i, hx, hy⟩ hzero
    have hbit := congrArg (BitVec.getLsbD · i) hzero
    simp [hx, hy] at hbit

/-- The test succeeds just when the mask meets the widened shift. -/
theorem rungdb_iff {wide : ℕ → BitVec 32} {gdbNodes : ℕ} (h : gdbNodes < 2 ^ 64) (id : ℕ) :
    rungdb wide gdbNodes id = true ↔
      ∃ i, gdbNodes.testBit i = true ∧ ((shiftOne wide id).signExtend 64).getLsbD i = true := by
  rw [rungdb, Bool.and_eq_true, decide_eq_true_eq, decide_eq_true_eq, and_ne_zero_iff]
  simp only [BitVec.getLsbD_ofNat, Bool.and_eq_true, decide_eq_true_eq]
  constructor
  · rintro ⟨-, i, ⟨-, hbit⟩, hshift⟩
    exact ⟨i, hbit, hshift⟩
  · rintro ⟨i, hbit, hshift⟩
    refine ⟨?_, i, ⟨BitVec.lt_of_getLsbD hshift, hbit⟩, hshift⟩
    rintro rfl
    simp at hbit

theorem getLsbD_shiftOne {wide : ℕ → BitVec 32} {id : ℕ} (hid : id < 31) (i : ℕ) :
    ((shiftOne wide id).signExtend 64).getLsbD i = true ↔ i = id := by
  have hone : ∀ j < 32, (1#32 <<< id).getLsbD j = decide (j = id) := by
    intro j hj
    rw [BitVec.getLsbD_shiftLeft, BitVec.getLsbD_one, Bool.eq_iff_iff]
    simp only [hj, decide_true, Bool.true_and, Bool.and_eq_true, Bool.not_eq_true',
      decide_eq_true_eq, decide_eq_false_iff_not]
    omega
  have hmsb : (1#32 <<< id).msb = false := by
    rw [BitVec.msb_eq_getLsbD_last, hone _ (by decide), decide_eq_false_iff_not]
    omega
  rw [shiftOne, if_pos hid, BitVec.getLsbD_signExtend, hmsb]
  split_ifs with hi
  · rw [hone i hi, Bool.and_eq_true, decide_eq_true_eq, decide_eq_true_eq]
    omega
  · simp only [Bool.and_false, Bool.false_eq_true, false_iff]
    omega

/-- From 31 on, the widened shift has all of the bits 31 to 63 or none. -/
theorem getLsbD_wide {wide : ℕ → BitVec 32} {id i : ℕ} (hid : 31 ≤ id) (hlo : 31 ≤ i)
    (hhi : i < 64) : ((shiftOne wide id).signExtend 64).getLsbD i = (wide id).msb := by
  rw [shiftOne, if_neg (not_lt.mpr hid), BitVec.getLsbD_signExtend]
  split_ifs with hi
  · obtain rfl : i = 31 := by omega
    rw [BitVec.msb_eq_getLsbD_last]
    simp
  · simp [hhi]

theorem two_pow_lt {j : ℕ} (h : j < 64) : 2 ^ j < 2 ^ 64 :=
  Nat.pow_lt_pow_right (by decide) h

/-- From 31 on some mask is misread: the mask of the node itself if the shift lacks its bit,
and the mask of another node, of which it then has the bit, otherwise. -/
theorem exists_rungdb_ne (wide : ℕ → BitVec 32) {id : ℕ} (hid : 31 ≤ id) (hlt : id < 64) :
    ∃ gdbNodes < 2 ^ 64, ¬ (rungdb wide gdbNodes id = true ↔ gdbNodes.testBit id = true) := by
  cases hmsb : (wide id).msb with
  | false =>
      refine ⟨2 ^ id, two_pow_lt hlt, fun hagree ↦ ?_⟩
      obtain ⟨i, hi, hshift⟩ :=
        (rungdb_iff (two_pow_lt hlt) id).mp (hagree.mpr Nat.testBit_two_pow_self)
      obtain rfl : id = i := by simpa [Nat.testBit_two_pow] using hi
      rw [getLsbD_wide hid hid hlt, hmsb] at hshift
      cases hshift
  | true =>
      obtain ⟨j, hjlo, hjhi, hne⟩ : ∃ j, 31 ≤ j ∧ j < 64 ∧ j ≠ id := by
        rcases eq_or_ne id 31 with rfl | hne
        · exact ⟨32, by decide, by decide, by decide⟩
        · exact ⟨31, le_rfl, by decide, hne.symm⟩
      have hset : ((shiftOne wide id).signExtend 64).getLsbD j = true := by
        rw [getLsbD_wide hid hjlo hjhi, hmsb]
      refine ⟨2 ^ j, two_pow_lt hjhi, fun hagree ↦ hne ?_⟩
      have hbit :=
        hagree.mp ((rungdb_iff (two_pow_lt hjhi) id).mpr ⟨j, Nat.testBit_two_pow_self, hset⟩)
      simpa [Nat.testBit_two_pow] using hbit

/-- Whatever the platform makes of a wide shift, the slave on a node chooses `gdbserver` just
when `start` would, for every mask, if and only if the node is at most 30. -/
theorem gdb_choice_iff (wide : ℕ → BitVec 32) {id : ℕ} (hle : id ≤ maxNumNodes) :
    (∀ gdbNodes < 2 ^ 64, ∀ port : ℤ, -2 ^ 31 ≤ port → port < 2 ^ 31 →
      ∃ r, slaveGdb gdbNodes port = some r ∧
        (rungdb wide r.1 id = true ↔ gdbNodes.testBit id = true) ∧
        ∀ ok nodes magic, nodes.testBit id = true → (start ok nodes gdbNodes magic).2 = true →
          (rungdb wide r.1 id = true ↔
            .execvpe id .gdbserver ∈ (start ok nodes gdbNodes magic).1)) ↔ id ≤ 30 := by
  have hmax : id < 64 := by
    simp only [maxNumNodes] at hle
    omega
  constructor
  · intro h
    by_contra hwide
    obtain ⟨gdbNodes, hlt, hne⟩ := exists_rungdb_ne wide (not_le.mp hwide) hmax
    obtain ⟨r, hr, hbit, -⟩ := h gdbNodes hlt 0 (by decide) (by decide)
    obtain ⟨r', hr', hmask⟩ : ∃ r, slaveGdb gdbNodes 0 = some r ∧ r.1 = gdbNodes :=
      slaveGdb_fst hlt (by decide) (by decide)
    obtain rfl := Option.some.inj (hr.symm.trans hr')
    rw [hmask] at hbit
    exact hne hbit
  · intro hid gdbNodes hlt port hlo hhi
    obtain ⟨r, hr, hmask⟩ := slaveGdb_fst hlt hlo hhi
    have hbit : rungdb wide r.1 id = true ↔ gdbNodes.testBit id = true := by
      rw [hmask, rungdb_iff hlt]
      simp [getLsbD_shiftOne (Nat.lt_succ_of_le hid)]
    refine ⟨r, hr, hbit, fun ok nodes magic hnode hok ↦ ?_⟩
    rw [hbit, start, List.mem_append, execvpe_mem_execLoop hok]
    simp only [mem_notifyLoop, notifyBarrier, reduceCtorEq, and_false, exists_false, or_false,
      Nat.zero_add]
    constructor
    · intro hset
      exact ⟨id, hnode, rfl, by rw [hset]; rfl⟩
    · rintro ⟨i, -, rfl, hprogram⟩
      by_contra hunset
      rw [Bool.not_eq_true] at hunset
      rw [hunset] at hprogram
      cases hprogram

/-- Node 30, on a platform where wide shifts give 0. -/
theorem gdb_choice_thirty :
    ∃ r, slaveGdb (2 ^ 30) 1234 = some r ∧ rungdb (fun _ ↦ 0) r.1 30 = true := by
  obtain ⟨r, hr, hbit, -⟩ := (gdb_choice_iff (fun _ ↦ 0) (by decide : 30 ≤ maxNumNodes)).mpr le_rfl
    (2 ^ 30) (by decide) 1234 (by decide) (by decide)
  exact ⟨r, hr, hbit.mpr (by decide)⟩

/-- The shift gives the least `int`: node 31 runs `gdbserver` though only node 32 was named. -/
theorem gdb_choice_wrong : slaveGdb (2 ^ 32) 1234 = some (2 ^ 32, 1234) ∧
    rungdb (fun _ ↦ 0x80000000#32) (2 ^ 32) 31 = true ∧ (2 ^ 32).testBit 31 = false := by
  refine ⟨?_, by decide, by decide⟩
  rw [slaveGdb, if_neg (by decide)]
  exact decodeGdbArg_gdbArg (by decide) (by decide) (by decide)

end AxiomApps.Run.Start
