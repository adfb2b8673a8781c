import AxiomApps.Run.NodeList

/-!
# The nodes of a run

`main` takes the nodes asked for with `-n` or `-N`, all nodes of the network if there are
none, and crops them to the nodes there are. Whether there is anything to crop it finds from
the greatest node asked for. The nodes then index the buffers of the redirected output, of
which the master has `MAX_NUM_NODES`.
-/

namespace AxiomApps.Run.NodeSet

open Numeral (saturate_lt scanHex)
open Output (maxNumNodes Stdio Fout Info)

/-- `MAX_NODES_SUPPORTED` -/
def maxNodesSupported : ℕ := 63

/-- `ALL_NODES_MASK` -/
def allNodesMask (x : ℕ) : ℕ :=
  if maxNodesSupported ≤ x then 0xfffffffffffffffe else (2 ^ x - 1) * 2 ^ 1 % 2 ^ 64

/-- The options that name nodes; the number of `-N` is what `atoi` returns. -/
inductive NodesOption
  | nodes (arg : List Char)
  | numnodes (n : ℤ)
  deriving DecidableEq, Repr

/-- One turn of the option loop of `main`, none if it exits. -/
def setNodes : NodesOption → Option ℕ
  | .nodes arg => decodeNodeArg arg
  | .numnodes n => if n ≤ 0 then none else some (allNodesMask n.toNat)

/-- The last option counts; without one the mask is 0. -/
def nodesOfOptions (opts : List NodesOption) : Option ℕ :=
  opts.foldlM (fun _ opt ↦ setNodes opt) 0

/-- The loop of `__clz`, which has to shift at most 63 times. -/
def clzLoop : ℕ → ℕ → ℕ → ℕ
  | 0, _, c => c
  | k + 1, n, c =>
      if n = 0 then c else if n.testBit 63 then c else clzLoop k (n * 2 % 2 ^ 64) (c + 1)

/-- `__clz` -/
def clz (n : ℕ) : ℕ := if n = 0 then 64 else clzLoop 64 n 0

/-- The nodes `main` passes to `start`, given the nodes asked for, none where its assertion
fails. -/
def cropNodes (numNodes nodes : ℕ) : Option ℕ :=
  let n := if maxNumNodes < numNodes then maxNumNodes else numNodes
  let nodes := if nodes = 0 then allNodesMask n else nodes
  let bn : ℤ := (maxNodesSupported : ℤ) - clz nodes - 1
  let nodes := if (n : ℤ) < bn then nodes &&& allNodesMask n else nodes
  if nodes = 0 then none else some nodes

/-! ## Masks -/

theorem testBit_allNodesMask (x i : ℕ) :
    (allNodesMask x).testBit i = true ↔ 1 ≤ i ∧ i ≤ x ∧ i ≤ maxNumNodes := by
  rw [allNodesMask]
  split_ifs with hx
  · have hall : (0xfffffffffffffffe : ℕ) = allNodes := rfl
    rw [hall, testBit_allNodes]
    simp only [maxNodesSupported, maxNumNodes] at hx ⊢
    omega
  · rw [testBit_interval]
    simp only [maxNodesSupported, maxNumNodes] at hx ⊢
    omega

theorem allNodesMask_lt (x : ℕ) : allNodesMask x < 2 ^ 64 := by
  refine Nat.lt_pow_two_of_testBit _ fun i hi ↦ ?_
  rw [← Bool.not_eq_true, testBit_allNodesMask]
  simp only [maxNumNodes]
  omega

theorem foldlM_invariant {α β : Type*} {P : β → Prop} {f : β → α → Option β}
    (hstep : ∀ b a b', P b → f b a = some b' → P b') {l : List α} {b b' : β} (hb : P b)
    (h : l.foldlM f b = some b') : P b' := by
  induction l generalizing b with
  | nil =>
      cases h
      exact hb
  | cons a l ih =>
      rw [List.foldlM_cons] at h
      obtain ⟨b₁, hb₁, hrest⟩ := Option.bind_eq_some_iff.mp h
      exact ih (hstep b a b₁ hb hb₁) hrest

theorem decodeItem_lt {r r' : ℕ} (hr : r < 2 ^ 64) {s : List Char}
    (h : decodeItem r s = some r') : r' < 2 ^ 64 := by
  have hmax := maxNumNodes_eq
  by_cases hminus : '-' ∈ s
  · rw [decodeItem_range hminus] at h
    obtain ⟨p, -, h⟩ := Option.bind_eq_some_iff.mp h
    split_ifs at h
    · cases h
      decide
    · cases h
      exact Nat.or_lt_two_pow hr (Nat.mod_lt _ (by decide))
  · rw [decodeItem_number hminus] at h
    obtain ⟨p, -, h⟩ := Option.bind_eq_some_iff.mp h
    split_ifs at h with hbad
    cases h
    exact Nat.or_lt_two_pow hr (Nat.pow_lt_pow_right (by decide) (by omega))

theorem decodeNodeArg_lt {arg : List Char} {r : ℕ} (h : decodeNodeArg arg = some r) :
    r < 2 ^ 64 := by
  by_cases hhex : ['0', 'x'].isPrefixOf arg = true
  · rw [decodeNodeArg_hex hhex] at h
    simp only [scanHex] at h
    split_ifs at h
    cases h
    exact saturate_lt ..
  · rw [decodeNodeArg_list hhex] at h
    exact foldlM_invariant (fun _ _ _ hr hitem ↦ decodeItem_lt hr hitem) (by decide) h

theorem setNodes_lt {opt : NodesOption} {r : ℕ} (h : setNodes opt = some r) : r < 2 ^ 64 := by
  cases opt with
  | nodes arg => exact decodeNodeArg_lt h
  | numnodes n =>
      simp only [setNodes, Option.ite_none_left_eq_some, Option.some.injEq] at h
      rw [← h.2]
      exact allNodesMask_lt _

theorem nodesOfOptions_lt {opts : List NodesOption} {nodes : ℕ}
    (h : nodesOfOptions opts = some nodes) : nodes < 2 ^ 64 :=
  foldlM_invariant (fun _ _ _ _ hopt ↦ setNodes_lt hopt) (by decide) h

/-! ## Leading zeros -/

theorem clzLoop_eq {k n : ℕ} (hn : n ≠ 0) (hlt : n < 2 ^ 64) (hk : 63 - n.log2 ≤ k) (c : ℕ) :
    clzLoop k n c = c + (63 - n.log2) := by
  induction k generalizing n c with
  | zero =>
      rw [clzLoop]
      omega
  | succ k ih =>
      rw [clzLoop, if_neg hn]
      by_cases htop : n < 2 ^ 63
      · have hlog : (n * 2).log2 = n.log2 + 1 := by
          rw [mul_comm]
          exact Nat.log2_two_mul hn
        have hle : n.log2 < 63 := (Nat.log2_lt hn).mpr htop
        have hshift : n * 2 % 2 ^ 64 = n * 2 := Nat.mod_eq_of_lt (by omega)
        rw [if_neg (by simp [Nat.testBit_lt_two_pow htop]), hshift,
          ih (by omega) (by omega) (by omega), hlog]
        omega
      · have hlog : n.log2 = 63 :=
          le_antisymm (Nat.lt_succ_iff.mp ((Nat.log2_lt hn).mpr hlt))
            ((Nat.le_log2 hn).mpr (not_lt.mp htop))
        have hbit : n.testBit 63 = true := hlog ▸ Nat.testBit_log2 hn
        rw [if_pos hbit, hlog, Nat.sub_self, Nat.add_zero]

/-- `__clz` finds the greatest node. -/
theorem clz_eq {n : ℕ} (hn : n ≠ 0) (hlt : n < 2 ^ 64) : clz n = 63 - n.log2 := by
  rw [clz, if_neg hn, clzLoop_eq hn hlt (by omega), Nat.zero_add]

theorem le_log2_of_testBit {n i : ℕ} (h : n.testBit i = true) : i ≤ n.log2 := by
  have hn : n ≠ 0 := by
    rintro rfl
    simp at h
  rw [Nat.le_log2 hn]
  by_contra hlt
  rw [Nat.testBit_lt_two_pow (not_le.mp hlt)] at h
  cases h

/-! ## Cropping -/

/-- Something is cropped only when a node two beyond the last was asked for. -/
theorem cropNodes_eq {numNodes nodes : ℕ} (hne : nodes ≠ 0) (hlt : nodes < 2 ^ 64) :
    cropNodes numNodes nodes =
      if min numNodes maxNumNodes + 1 < nodes.log2 then
        if nodes &&& allNodesMask (min numNodes maxNumNodes) = 0 then none
        else some (nodes &&& allNodesMask (min numNodes maxNumNodes))
      else some nodes := by
  have hn : (if maxNumNodes < numNodes then maxNumNodes else numNodes) =
      min numNodes maxNumNodes := by
    split_ifs <;> omega
  have hlog : nodes.log2 < 64 := (Nat.log2_lt hne).mpr hlt
  have hbn : ((min numNodes maxNumNodes : ℕ) : ℤ) <
      (maxNodesSupported : ℤ) - clz nodes - 1 ↔ min numNodes maxNumNodes + 1 < nodes.log2 := by
    rw [clz_eq hne hlt, maxNodesSupported]
    omega
  simp only [cropNodes, hn, hne, if_false, hbn]
  split_ifs <;> rfl

/-- The nodes passed on are those asked for that exist, just when the greatest node asked for
is at least two beyond the last or when they all exist. -/
theorem cropNodes_exist_iff {opts : List NodesOption} {nodes numNodes : ℕ}
    (hopts : nodesOfOptions opts = some nodes) (hne : nodes ≠ 0) :
    (∀ m, cropNodes numNodes nodes = some m →
      (∀ i, m.testBit i = true → 1 ≤ i ∧ i ≤ min numNodes maxNumNodes) ∧
      ∀ i, m.testBit i = true ↔
        nodes.testBit i = true ∧ 1 ≤ i ∧ i ≤ min numNodes maxNumNodes) ↔
      (min numNodes maxNumNodes + 1 < nodes.log2 ∨
        nodes.log2 ≤ min numNodes maxNumNodes ∧ nodes.testBit 0 = false) := by
  rw [cropNodes_eq hne (nodesOfOptions_lt hopts)]
  constructor
  · intro h
    by_cases hcrop : min numNodes maxNumNodes + 1 < nodes.log2
    · exact .inl hcrop
    · obtain ⟨hsub, -⟩ := h nodes (if_neg hcrop)
      refine .inr ⟨(hsub _ (Nat.testBit_log2 hne)).2, ?_⟩
      by_contra hzero
      have hle := (hsub 0 (by simpa using hzero)).1
      omega
  · intro h m hm
    have hbits : ∀ i, m.testBit i = true ↔
        nodes.testBit i = true ∧ 1 ≤ i ∧ i ≤ min numNodes maxNumNodes := by
      intro i
      split_ifs at hm with hcrop hzero
      · cases hm
        rw [Nat.testBit_and, Bool.and_eq_true, testBit_allNodesMask]
        have hle : i ≤ min numNodes maxNumNodes → i ≤ maxNumNodes :=
          fun hi ↦ hi.trans (Nat.min_le_right ..)
        tauto
      · cases hm
        obtain ⟨hlog, hbit⟩ := h.resolve_left hcrop
        refine ⟨fun hi ↦ ⟨hi, ?_, (le_log2_of_testBit hi).trans hlog⟩, And.left⟩
        by_contra hpos
        obtain rfl : i = 0 := by omega
        rw [hbit] at hi
        cases hi
    exact ⟨fun i hi ↦ ((hbits i).mp hi).2, hbits⟩

/-- Nodes 1 and 3, of three. -/
theorem cropNodes_exist_three :
    nodesOfOptions [.nodes (nodeArg 10)] = some 10 ∧
    ∀ m, cropNodes 3 10 = some m → ∀ i, m.testBit i = true → 1 ≤ i ∧ i ≤ min 3 maxNumNodes := by
  have hopts : nodesOfOptions [.nodes (nodeArg 10)] = some 10 := by
    simp [nodesOfOptions, setNodes, decodeNodeArg_nodeArg]
  have hlog : Nat.log2 10 = 3 := by decide
  refine ⟨hopts, fun m hm ↦ ?_⟩
  exact ((cropNodes_exist_iff hopts (by decide)).mpr
    (.inr ⟨by rw [hlog]; decide, by decide⟩) m hm).1

/-- `-N 3` on a network of two nodes: node 3 is started. -/
theorem cropNodes_missing : nodesOfOptions [.numnodes 3] = some 14 ∧
    cropNodes 2 14 = some 14 ∧ Nat.testBit 14 3 = true :=
  ⟨by decide, by decide, by decide⟩

/-! ## The buffers -/

section Buffers

variable {ω : Type*} (io : Stdio ω) (maxBufferSize flags : ℕ)

/-- The arrays `master_receiver` allocates. -/
def Buffers : Type := Fin maxNumNodes → List UInt8

def Buffers.info (b : Buffers) : Info := fun k ↦ if h : k < maxNumNodes then b ⟨k, h⟩ else []

def Buffers.ofInfo (info : Info) : Buffers := fun i ↦ info i

/-- `emit` on the arrays: the assertion admits `MAX_NUM_NODES`, for which there is no entry. -/
def emitAt (node : ℕ) (buffer : List UInt8) (st : Buffers × Fout ω) :
    Option (Buffers × Fout ω) :=
  if node ≤ maxNumNodes then
    if node < maxNumNodes then
      (Output.emit io maxBufferSize flags node buffer (st.1.info, st.2)).map
        fun r ↦ (.ofInfo r.1, r.2)
    else none
  else none

def emitAllAt (st : Buffers × Fout ω) (chunks : List (ℕ × List UInt8)) :
    Option (Buffers × Fout ω) :=
  chunks.foldlM (fun st c ↦ emitAt io maxBufferSize flags c.1 c.2 st) st

def flushAt (st : Buffers × Fout ω) : Buffers × Fout ω :=
  let r := Output.flush io flags maxNumNodes (st.1.info, st.2)
  (.ofInfo r.1, r.2)

theorem flushAt_snd (st : Buffers × Fout ω) :
    (flushAt io flags st).2 = (Output.flush io flags maxNumNodes (st.1.info, st.2)).2 := by
  simp only [flushAt]

def noOutput (w : ω) : Buffers × Fout ω := (fun _ ↦ [], ⟨w, []⟩)

theorem Buffers.info_noOutput (w : ω) :
    ((noOutput w).1.info, (noOutput w).2) = Output.start w := by
  have hinfo : (noOutput w).1.info = fun _ ↦ [] := by
    funext k
    simp [Buffers.info, noOutput]
  rw [hinfo]
  rfl

variable {maxBufferSize}

/-- Within the arrays an `emit` keeps to its entry. -/
theorem emitAt_of_lt {node : ℕ} {buffer : List UInt8} (hnode : node < maxNumNodes)
    (hbuffer : buffer.length ≤ maxBufferSize) (st : Buffers × Fout ω) :
    ∃ st', emitAt io maxBufferSize flags node buffer st = some st' ∧
      Output.emit io maxBufferSize flags node buffer (st.1.info, st.2) =
        some (st'.1.info, st'.2) := by
  obtain ⟨rest, f', hemit, -⟩ : Output.Emitted maxBufferSize node buffer (st.1.info, st.2)
      (Output.emit io maxBufferSize flags node buffer (st.1.info, st.2)) :=
    Output.emit_spec io hbuffer
  have hinfo : (Buffers.ofInfo (Function.update st.1.info node rest)).info =
      Function.update st.1.info node rest := by
    funext k
    by_cases hk : k < maxNumNodes
    · simp [Buffers.info, Buffers.ofInfo, hk]
    · have hne : k ≠ node := by omega
      simp [Buffers.info, hk, hne]
  refine ⟨(.ofInfo (Function.update st.1.info node rest), f'), ?_, ?_⟩
  · rw [emitAt, if_pos hnode.le, if_pos hnode, hemit]
    rfl
  · rw [hinfo]
    exact hemit

theorem emitAllAt_of_lt {chunks : List (ℕ × List UInt8)}
    (hchunks : ∀ c ∈ chunks, c.1 < maxNumNodes ∧ c.2.length ≤ maxBufferSize)
    (st : Buffers × Fout ω) :
    ∃ st', emitAllAt io maxBufferSize flags st chunks = some st' ∧
      Output.emitAll io maxBufferSize flags (st.1.info, st.2) chunks =
        some (st'.1.info, st'.2) := by
  induction chunks generalizing st with
  | nil => exact ⟨st, rfl, rfl⟩
  | cons c chunks ih =>
      obtain ⟨hnode, hbuffer⟩ := hchunks c (by simp)
      obtain ⟨st₁, hat, hemit⟩ := emitAt_of_lt io flags hnode hbuffer st
      obtain ⟨st', hall, hemitAll⟩ := ih (fun c hc ↦ hchunks c (List.mem_cons_of_mem _ hc)) st₁
      refine ⟨st', ?_, ?_⟩
      · rw [emitAllAt, List.foldlM_cons, hat]
        exact hall
      · rw [Output.emitAll, List.foldlM_cons, hemit]
        exact hemitAll

/-- The nodes of a mask of 64 bits without node 63 have entries. -/
theorem lt_maxNumNodes {m k : ℕ} (hm : m < 2 ^ 64) (hlast : m.testBit maxNumNodes = false)
    (hk : m.testBit k = true) : k < maxNumNodes := by
  have h64 : k < 64 := by
    by_contra hge
    have hlt : m < 2 ^ k := hm.trans_le (Nat.pow_le_pow_right (by decide) (by omega))
    rw [Nat.testBit_lt_two_pow hlt] at hk
    cases hk
  have hne : k ≠ maxNumNodes := by
    rintro rfl
    rw [hlast] at hk
    cases hk
  simp only [maxNumNodes] at hne ⊢
  omega

theorem cropNodes_lt {opts : List NodesOption} {nodes numNodes m : ℕ}
    (hopts : nodesOfOptions opts = some nodes) (hcrop : cropNodes numNodes nodes = some m) :
    m < 2 ^ 64 := by
  simp only [cropNodes, Option.ite_none_left_eq_some, Option.some.injEq] at hcrop
  obtain ⟨-, rfl⟩ := hcrop
  generalize (if maxNumNodes < numNodes then maxNumNodes else numNodes) = n
  have hasked : (if nodes = 0 then allNodesMask n else nodes) < 2 ^ 64 := by
    split_ifs
    · exact allNodesMask_lt n
    · exact nodesOfOptions_lt hopts
  generalize (if nodes = 0 then allNodesMask n else nodes) = asked at hasked ⊢
  split_ifs
  · exact Nat.and_lt_two_pow _ (allNodesMask_lt n)
  · exact hasked

/-- Whatever the nodes of a run send is written from entries of the arrays, and at the end of
the run it has all been written, just when node 63 is not one of them. -/
theorem buffers_hold_output_iff (io : Stdio ω) (maxBufferSize flags : ℕ) (w : ω)
    (hsize : 0 < maxBufferSize) {opts : List NodesOption} {nodes numNodes m : ℕ}
    (hopts : nodesOfOptions opts = some nodes) (hcrop : cropNodes numNodes nodes = some m) :
    (∀ chunks : List (ℕ × List UInt8),
      (∀ c ∈ chunks, m.testBit c.1 = true ∧ c.2.length ≤ maxBufferSize) →
      ∃ st, emitAllAt io maxBufferSize flags (noOutput w) chunks = some st ∧
        ∀ k, (flushAt io flags st).2.data k = Output.stream chunks k) ↔
      m.testBit maxNumNodes = false := by
  constructor
  · intro h
    by_contra hbit
    obtain ⟨st, hst, -⟩ := h [(maxNumNodes, [97])] (by simpa using ⟨by simpa using hbit, hsize⟩)
    simp [emitAllAt, emitAt] at hst
  · intro hbit chunks hchunks
    have hlt : ∀ c ∈ chunks, c.1 < maxNumNodes ∧ c.2.length ≤ maxBufferSize := by
      intro c hc
      obtain ⟨hnode, hlen⟩ := hchunks c hc
      exact ⟨lt_maxNumNodes (cropNodes_lt hopts hcrop) hbit hnode, hlen⟩
    obtain ⟨st, hall, hemitAll⟩ := emitAllAt_of_lt io flags hlt (noOutput w)
    rw [Buffers.info_noOutput] at hemitAll
    obtain ⟨st', hst', -, hdata⟩ := Output.output_complete io maxBufferSize flags w chunks hlt
    obtain rfl := Option.some.inj (hemitAll.symm.trans hst')
    refine ⟨st, hall, fun k ↦ ?_⟩
    rw [flushAt_snd]
    exact hdata k

end Buffers

/-- The two nodes of a network, none being asked for. -/
theorem buffers_hold_output_default :
    cropNodes 2 0 = some 6 ∧
    ∃ st, emitAllAt Output.byteStdio 4 1 (noOutput ()) [(1, [104]), (2, [105])] = some st ∧
      ∀ k, (flushAt Output.byteStdio 1 st).2.data k = Output.stream [(1, [104]), (2, [105])] k :=
  have hopts : nodesOfOptions [] = some 0 := rfl
  have hcrop : cropNodes 2 0 = some 6 := by decide
  ⟨hcrop, (buffers_hold_output_iff Output.byteStdio 4 1 () (by decide) hopts hcrop).mpr
    (by decide) _ (by decide)⟩

/-- `-N 63` on a network of 63 nodes: the output of node 63 is put behind the arrays. -/
theorem node_without_buffer : nodesOfOptions [.numnodes 63] = some 0xfffffffffffffffe ∧
    cropNodes 63 0xfffffffffffffffe = some 0xfffffffffffffffe ∧
    Nat.testBit 0xfffffffffffffffe 63 = true ∧
    emitAllAt Output.byteStdio 4 1 (noOutput ()) [(63, [97])] = none := by
  have hlog : Nat.log2 0xfffffffffffffffe < 64 := (Nat.log2_lt (by decide)).mpr (by decide)
  have hall : ¬ min 63 maxNumNodes + 1 < Nat.log2 0xfffffffffffffffe := by
    simp only [maxNumNodes]
    omega
  refine ⟨by decide, ?_, by decide, rfl⟩
  rw [cropNodes_eq (by decide) (by decide), if_neg hall]

end AxiomApps.Run.NodeSet
