import AxiomApps.Discovery.Stages

/-!
# How the memories change along the search

One lemma for each thing that happens to the memories: an interface is passed over, a
neighbour is learnt, a new board is numbered, it begins, it is done, its report is
read, and its parent goes on.
-/

namespace AxiomApps.Discovery

variable {nic : NicLimits} {V : Type*} [DecidableEq V]
variable {net : Network nic V} {master : V} {masterId : ℕ}
variable {order : List V} {top v p c : V} {stack st : Stack V} {i j : ℕ}
variable {mem mem' : V → Mem} {pend : List Msg}

/-! ## Waiting boards -/

/-- The waiting boards may learn more, and routes may be added that are not theirs. -/
theorem Frames.mono (h : Frames net masterId order mem c st)
    (hl : Linked net master order c st)
    (hknows : ∀ q ∈ st.nodes, ∀ z, ∀ k < nic.interfacesNum,
      Knows masterId order (mem q).topology z k → Knows masterId order (mem' q).topology z k)
    (hrole : ∀ q ∈ st.nodes, (mem' q).role = (mem q).role)
    (hroute : ∀ z ∈ order, ∀ x ∈ order, order.idxOf x < order.idxOf c →
      order.idxOf z < order.idxOf x →
      (mem' z).routing (ident masterId order x) = (mem z).routing (ident masterId order x)) :
    Frames net masterId order mem' c st := by
  induction st generalizing c with
  | nil => trivial
  | cons f st ih =>
      obtain ⟨q, i⟩ := f
      obtain ⟨hframe, hq, hrest⟩ := h
      obtain ⟨⟨_, hwire⟩, _, hlt, hl⟩ := hl
      have hk := hknows q (by simp)
      refine ⟨⟨?_, ?_, ?_, ?_⟩, ?_, ?_⟩
      · intro k hki q' hq'
        exact hk q k (net.lt_interfacesNum hq') (hframe.below k hki q' hq')
      · exact hk q i (net.lt_interfacesNum hwire) hframe.child
      · intro x hx hqx hxc k q' hq'
        exact hk x k (net.lt_interfacesNum hq') (hframe.sub x hx hqx hxc k q' hq')
      · intro x hx hqx hxc
        exact (hframe.down x hx hqx hxc).congr fun z hz _ hzx ↦ hroute z hz x hx hxc hzx
      · rwa [hrole q (by simp)]
      · refine ih hrest hl (fun q' hq' ↦ hknows q' (by simp [hq']))
          (fun q' hq' ↦ hrole q' (by simp [hq'])) ?_
        intro z hz x hx hxq
        exact hroute z hz x hx (hxq.trans hlt)

theorem Frames.congr (h : Frames net masterId order mem c st)
    (hl : Linked net master order c st)
    (hmem : ∀ q ∈ st.nodes, (mem' q).topology = (mem q).topology ∧ (mem' q).role = (mem q).role)
    (hroute : ∀ z ∈ order, ∀ x ∈ order, order.idxOf x < order.idxOf c →
      order.idxOf z < order.idxOf x →
      (mem' z).routing (ident masterId order x) = (mem z).routing (ident masterId order x)) :
    Frames net masterId order mem' c st := by
  refine h.mono hl (fun q hq z k _ hz ↦ ?_) (fun q hq ↦ (hmem q hq).2) hroute
  rwa [(hmem q hq).1]

theorem KnowsAll.append {t : Topology} {x : V} (h : KnowsAll net masterId order t x)
    (hx : x ∈ order) : KnowsAll net masterId (order ++ [v]) t x :=
  fun k q hwire ↦ (knows_append_iff hx).mpr (h k q hwire)

/-- A board found before another one was there before a new one came. -/
theorem mem_of_idxOf_lt {x : V} (hv : v ∉ order) (hc : c ∈ order) (hx : x ∈ order ++ [v])
    (hlt : (order ++ [v]).idxOf x < (order ++ [v]).idxOf c) :
    x ∈ order ∧ order.idxOf x < order.idxOf c := by
  have hcl := List.idxOf_lt_length_of_mem hc
  rw [idxOf_append_of_mem hc] at hlt
  rcases List.mem_append.mp hx with hx | hx
  · rw [idxOf_append_of_mem hx] at hlt
    exact ⟨hx, hlt⟩
  · obtain rfl : x = v := by simpa using hx
    rw [idxOf_append_new hv] at hlt
    omega

theorem Frames.append (h : Frames net masterId order mem c st)
    (hl : Linked net master order c st) (hc : c ∈ order) (hv : v ∉ order) :
    Frames net masterId (order ++ [v]) mem c st := by
  induction st generalizing c with
  | nil => trivial
  | cons f st ih =>
      obtain ⟨q, i⟩ := f
      obtain ⟨hframe, hrole, hrest⟩ := h
      obtain ⟨_, hq, _, hl⟩ := hl
      refine ⟨⟨?_, ?_, ?_, ?_⟩, hrole, ih hrest hl hq⟩
      · intro k hk q' hwire
        exact (knows_append_iff hq).mpr (hframe.below k hk q' hwire)
      · exact (knows_append_iff hq).mpr hframe.child
      · intro x hx hqx hxc
        obtain ⟨hx, hxc⟩ := mem_of_idxOf_lt hv hc hx hxc
        rw [idxOf_append_of_mem hq, idxOf_append_of_mem hx] at hqx
        exact (hframe.sub x hx hqx hxc).append hx
      · intro x hx hqx hxc
        obtain ⟨hx, hxc⟩ := mem_of_idxOf_lt hv hc hx hxc
        rw [idxOf_append_of_mem hq, idxOf_append_of_mem hx] at hqx
        exact (hframe.down x hx hqx hxc).append hx

namespace Base

theorem stack_mem (h : Base net master masterId order top stack mem) {q : V}
    (hq : q ∈ stack.nodes) : q ∈ order :=
  (h.linked.idxOf_lt hq).1

theorem path_mem (h : Base net master masterId order top stack mem) {q : V}
    (hq : q = top ∨ q ∈ stack.nodes) : q ∈ order := by
  rcases hq with rfl | hq
  · exact h.top_mem
  · exact h.stack_mem hq

theorem master_mem (h : Base net master masterId order top stack mem) : master ∈ order :=
  List.mem_of_mem_head? h.head

theorem idxOf_master (h : Base net master masterId order top stack mem) :
    order.idxOf master = 0 := by
  obtain ⟨rest, rfl⟩ : ∃ rest, order = master :: rest := by
    have hhead := h.head
    cases order with
    | nil => simp at hhead
    | cons x rest =>
        obtain rfl : x = master := by simpa using hhead
        exact ⟨rest, rfl⟩
  exact List.idxOf_cons_self

theorem ident_master (h : Base net master masterId order top stack mem) :
    ident masterId order master = masterId := by
  simp [ident, h.idxOf_master]

/-- The memories of boards without a number, and what the search does not read, may
change. -/
theorem congr (h : Base net master masterId order top stack mem)
    (ht : ∀ w ∈ order, (mem' w).topology = (mem w).topology)
    (hr : ∀ w ∈ order, w ≠ top → (mem' w).role = (mem w).role)
    (hi : ∀ w ∈ order, w ≠ top → (mem' w).nodeId = (mem w).nodeId)
    (hroute : ∀ w ∈ order, ∀ x ∈ order, w ≠ x →
      (mem' w).routing (ident masterId order x) = (mem w).routing (ident masterId order x)) :
    Base net master masterId order top stack mem' where
  nodup := h.nodup
  head := h.head
  room := h.room
  top_mem := h.top_mem
  linked := h.linked
  sound w hw := by
    rw [ht w hw]
    exact h.sound w hw
  mutual_ w hw := by
    rw [ht w hw]
    exact h.mutual_ w hw
  finished := h.finished
  ids w hw hne := by
    rw [hi w hw hne]
    exact h.ids w hw hne
  frames := by
    refine h.frames.congr h.linked ?_ ?_
    · intro q hq
      have hne : q ≠ top := by
        rintro rfl
        exact h.linked.notMem hq
      exact ⟨ht q (h.stack_mem hq), hr q (h.stack_mem hq) hne⟩
    · intro z hz x hx _ hzx
      refine hroute z hz x hx ?_
      rintro rfl
      exact lt_irrefl _ hzx
  up hmaster w hw hne := by
    obtain ⟨k, q, b, hwire, hq, hlt, hup⟩ := h.up hmaster w hw hne
    have heq := hroute w hw master h.master_mem hne
    rw [h.ident_master] at heq
    exact ⟨k, q, b, hwire, hq, hlt, heq.trans hup⟩

section Link

variable {q x y : V} {a b k l : ℕ}

theorem knows_link (h : Base net master masterId order top stack mem) (hx : x ∈ order)
    (hy : y ∈ order) (hxy : net.wire x a = some (y, k)) (hyx : net.wire y b = some (x, l))
    (hmem' : mem' = Function.update mem q { mem q with
      topology := (mem q).topology.link nic.interfacesNum (ident masterId order x) a
        (ident masterId order y) b })
    {w : V} (hw : w ∈ order) {z : V} {c : ℕ} (hc : c < nic.interfacesNum)
    (hz : Knows masterId order (mem w).topology z c) :
    Knows masterId order (mem' w).topology z c := by
  by_cases hwq : w = q
  · subst hwq
    rw [hmem', Function.update_self]
    exact link_knows_mono (h.sound w hw) hx hy hxy hyx hc hz
  · rwa [hmem', Function.update_of_ne hwq]

/-- A board records a cable between two boards that have numbers. -/
theorem link (h : Base net master masterId order top stack mem) (hx : x ∈ order) (hy : y ∈ order)
    (hxy : net.wire x a = some (y, k)) (hyx : net.wire y b = some (x, l))
    (hmem' : mem' = Function.update mem q { mem q with
      topology := (mem q).topology.link nic.interfacesNum (ident masterId order x) a
        (ident masterId order y) b }) :
    Base net master masterId order top stack mem' := by
  have hsame : ∀ w, (mem' w).role = (mem w).role ∧ (mem' w).nodeId = (mem w).nodeId ∧
      (mem' w).routing = (mem w).routing := by
    intro w
    by_cases hw : w = q
    · subst hw
      simp [hmem']
    · rw [hmem', Function.update_of_ne hw]
      exact ⟨rfl, rfl, rfl⟩
  refine
    { nodup := h.nodup, head := h.head, room := h.room, top_mem := h.top_mem
      linked := h.linked, sound := ?_, mutual_ := ?_, finished := h.finished, ids := ?_
      frames := ?_, up := ?_ }
  · intro w hw
    by_cases hwq : w = q
    · subst hwq
      rw [hmem', Function.update_self]
      exact (h.sound w hw).link hx hy hxy hyx
    · rw [hmem', Function.update_of_ne hwq]
      exact h.sound w hw
  · intro w hw
    by_cases hwq : w = q
    · subst hwq
      rw [hmem', Function.update_self]
      exact (h.mutual_ w hw).link (h.sound w hw) h.room hx hy hxy hyx
    · rw [hmem', Function.update_of_ne hwq]
      exact h.mutual_ w hw
  · intro w hw hwt
    rw [(hsame w).2.1]
    exact h.ids w hw hwt
  · refine h.frames.mono h.linked (fun w hw z c hc hz ↦ ?_) (fun w _ ↦ (hsame w).1)
      fun z _ w _ _ _ ↦ by rw [(hsame z).2.2]
    exact h.knows_link hx hy hxy hyx hmem' (h.stack_mem hw) hc hz
  · intro hm w hw hwm
    rw [(hsame w).2.2]
    exact h.up hm w hw hwm

end Link

end Base

variable [Fintype V]

/-! ## At a board -/

namespace Exploring

theorem congr (h : Exploring net master masterId order top stack i mem)
    (hmem : ∀ w ∈ order, (mem' w).topology = (mem w).topology ∧ (mem' w).role = (mem w).role ∧
      (mem' w).nodeId = (mem w).nodeId ∧ (mem' w).routing = (mem w).routing) :
    Exploring net master masterId order top stack i mem' where
  toBase := h.toBase.congr (fun w hw ↦ (hmem w hw).1) (fun w hw _ ↦ (hmem w hw).2.1)
    (fun w hw _ ↦ (hmem w hw).2.2.1) fun w hw x _ _ ↦ by rw [(hmem w hw).2.2.2]
  role := by
    rw [(hmem top h.top_mem).2.1]
    exact h.role
  id := by
    rw [(hmem top h.top_mem).2.2.1]
    exact h.id
  paired w hw := by
    rw [(hmem w (h.path_mem hw)).1]
    exact h.paired w hw
  below := by
    rw [(hmem top h.top_mem).1]
    exact h.below
  sub := by
    rw [(hmem top h.top_mem).1]
    exact h.sub
  down x hx hlt := (h.down x hx hlt).congr fun z hz _ _ ↦ by rw [(hmem z hz).2.2.2]
  dfs := h.dfs

/-- An interface without a cable, or with a neighbour already known, is passed over. -/
theorem skip (h : Exploring net master masterId order top stack i mem)
    (hknown : ∀ q, net.wire top i = some q → Knows masterId order (mem top).topology top i) :
    Exploring net master masterId order top stack (i + 1) mem where
  toBase := h.toBase
  role := h.role
  id := h.id
  paired := h.paired
  below k hk q hwire := by
    rcases Nat.lt_succ_iff_lt_or_eq.mp hk with hk | rfl
    · exact h.below k hk q hwire
    · exact hknown q hwire
  sub := h.sub
  down := h.down
  dfs := by
    have hskip : (portGraph net).explore top i order =
        (portGraph net).explore top (i + 1) order := by
      apply PortGraph.explore_skip
      intro v hv
      obtain ⟨⟨v', j⟩, hwire, rfl⟩ := Option.map_eq_some_iff.mp hv
      exact (h.sound top h.top_mem).mem_of_knows h.top_mem hwire (hknown _ hwire)
    have hdfs := h.dfs
    rw [PortGraph.resume, hskip] at hdfs
    exact hdfs

/-- A neighbour that is not known yet has not been found, or waits for the search to
come back: a board that is done was found from here and has reported the link. -/
theorem neighbour (h : Exploring net master masterId order top stack i mem)
    (hwire : net.wire top i = some (v, j))
    (hunknown : ¬ Knows masterId order (mem top).topology top i) :
    v ∉ order ∨ v ∈ stack.nodes := by
  by_contra hcon
  push Not at hcon
  obtain ⟨hv, hstack⟩ := hcon
  have hback := net.symm hwire
  have hlt := (h.finished v hv (net.ne hback) hstack j top i hback).2 (.inl rfl)
  have hknows := h.sub v hv hlt j _ hback
  exact hunknown (h.paired top (.inl rfl) v hv j top i hback hknows)

/-- The answer of a neighbour that has an id is recorded. -/
theorem learn (h : Exploring net master masterId order top stack i mem)
    (hwire : net.wire top i = some (v, j)) (hv : v ∈ order)
    (hmem' : mem' = Function.update mem top { mem top with
      topology := (mem top).topology.link nic.interfacesNum (ident masterId order top) i
        (ident masterId order v) j }) :
    Exploring net master masterId order top stack (i + 1) mem' := by
  have hback := net.symm hwire
  have htop : (mem' top).topology = (mem top).topology.link nic.interfacesNum
      (ident masterId order top) i (ident masterId order v) j := by
    simp [hmem']
  have hstack : ∀ w ∈ stack.nodes, mem' w = mem w := by
    intro w hw
    rw [hmem', Function.update_of_ne]
    rintro rfl
    exact h.linked.notMem hw
  have hrouting : ∀ w, (mem' w).routing = (mem w).routing := by
    intro w
    by_cases hw : w = top
    · subst hw
      simp [hmem']
    · rw [hmem', Function.update_of_ne hw]
  have hmono : ∀ {z : V} {k : ℕ}, k < nic.interfacesNum →
      Knows masterId order (mem top).topology z k →
        Knows masterId order (mem' top).topology z k :=
    fun hk hz ↦ h.knows_link h.top_mem hv hwire hback hmem' h.top_mem hk hz
  refine
    { toBase := h.toBase.link h.top_mem hv hwire hback hmem', role := ?_, id := ?_
      paired := ?_, below := ?_, sub := ?_, down := ?_, dfs := ?_ }
  · have hrole : (mem' top).role = (mem top).role := by simp [hmem']
    rw [hrole]
    exact h.role
  · have hid : (mem' top).nodeId = (mem top).nodeId := by simp [hmem']
    rw [hid]
    exact h.id
  · rintro w (rfl | hw)
    · rw [htop]
      exact (h.paired w (.inl rfl)).link (h.sound w h.top_mem) h.room h.top_mem hv hwire
    · rw [hstack w hw]
      exact h.paired w (.inr hw)
  · intro k hk q hq
    rcases Nat.lt_succ_iff_lt_or_eq.mp hk with hk | rfl
    · exact hmono (net.lt_interfacesNum hq) (h.below k hk q hq)
    · rw [htop]
      exact link_knows_left h.room h.top_mem hv hwire hback
  · intro x hx hlt k q hq
    exact hmono (net.lt_interfacesNum hq) (h.sub x hx hlt k q hq)
  · intro x hx hlt
    exact (h.down x hx hlt).congr fun z _ _ _ ↦ by rw [hrouting z]
  · have hskip : (portGraph net).explore top i order =
        (portGraph net).explore top (i + 1) order := by
      apply PortGraph.explore_skip
      intro v' hv'
      obtain rfl : v = v' := by simpa [portGraph, hwire] using hv'
      exact hv
    have hdfs := h.dfs
    rw [PortGraph.resume, hskip] at hdfs
    exact hdfs

/-- What happens to the memories when `top` gives the next number to `v`. -/
structure Names (masterId : ℕ) (nic : NicLimits) (order : List V) (top v : V) (i j : ℕ)
    (mem mem' : V → Mem) : Prop where
  others : ∀ w, w ≠ top → mem' w = mem w
  topology : (mem' top).topology = (mem top).topology.link nic.interfacesNum
    (ident masterId (order ++ [v]) top) i (ident masterId (order ++ [v]) v) j
  role : (mem' top).role = (mem top).role
  nodeId : (mem' top).nodeId = (mem top).nodeId
  nextId : (mem' top).nextId = ident masterId (order ++ [v]) v
  /-- the only new route is the one to the new board -/
  routing : ∀ w, ∀ x ∈ order, (mem' w).routing (ident masterId order x) =
    (mem w).routing (ident masterId order x)

theorem names (h : Exploring net master masterId order top stack i mem) (hv : v ∉ order)
    (hnext : (mem top).nextId = masterId + order.length)
    (hmem' : mem' = Function.update mem top { mem top with
      routing := Function.update (mem top).routing (mem top).nextId (axiomCodifyRoutingMask i)
      topology := (mem top).topology.link nic.interfacesNum (mem top).nodeId i
        (mem top).nextId j }) :
    Names masterId nic order top v i j mem mem' := by
  have hidv : ident masterId (order ++ [v]) v = (mem top).nextId := by
    rw [hnext, ident_append_new hv]
  have hidt : ident masterId (order ++ [v]) top = (mem top).nodeId := by
    rw [h.id, ident_append_of_mem h.top_mem]
  have hne : ∀ w, w ≠ top → mem' w = mem w := by
    intro w hw
    rw [hmem', Function.update_of_ne hw]
  refine ⟨hne, ?_, ?_, ?_, ?_, fun w x hx ↦ ?_⟩
  · simp [hmem', hidv, hidt]
  · simp [hmem']
  · simp [hmem']
  · rw [hidv]
    simp [hmem']
  · by_cases hw : w = top
    · subst hw
      have hkey : ident masterId order x ≠ (mem w).nextId := by
        have hlt := List.idxOf_lt_length_of_mem hx
        unfold ident
        omega
      simp [hmem', Function.update_of_ne hkey]
    · rw [hne w hw]

section Named

variable (h : Exploring net master masterId order top stack i mem)
  (hwire : net.wire top i = some (v, j)) (hv : v ∉ order)
  (hroom : masterId + (order ++ [v]).length ≤ 255)
  (hn : Names masterId nic order top v i j mem mem')

include h hwire hn in
theorem knows_named {z : V} {k : ℕ} (hk : k < nic.interfacesNum) (hz : z ∈ order)
    (hknows : Knows masterId order (mem top).topology z k) :
    Knows masterId (order ++ [v]) (mem' top).topology z k := by
  rw [hn.topology]
  exact link_knows_mono (h.sound top h.top_mem).append (List.mem_append_left _ h.top_mem)
    (by simp) hwire (net.symm hwire) hk ((knows_append_iff hz).mpr hknows)

include h hwire hv hroom hn in
/-- The board that has found a new one waits for it. -/
theorem frames_named : Frames net masterId (order ++ [v]) mem' v ((top, i) :: stack) := by
  -- the boards found before the new one are the old ones
  have hold : ∀ x ∈ order ++ [v], (order ++ [v]).idxOf x < (order ++ [v]).idxOf v →
      x ∈ order := by
    intro x hx hxv
    rcases List.mem_append.mp hx with hx | hx
    · exact hx
    · obtain rfl : x = v := by simpa using hx
      exact absurd hxv (lt_irrefl _)
  refine ⟨⟨?_, ?_, ?_, ?_⟩, ?_, ?_⟩
  · intro k hk q hq
    exact h.knows_named hwire hn (net.lt_interfacesNum hq) h.top_mem (h.below k hk q hq)
  · rw [hn.topology]
    exact link_knows_left hroom (List.mem_append_left _ h.top_mem) (by simp) hwire
      (net.symm hwire)
  · intro x hx htx hxv k q hq
    replace hx := hold x hx hxv
    rw [idxOf_append_of_mem h.top_mem, idxOf_append_of_mem hx] at htx
    exact h.knows_named hwire hn (net.lt_interfacesNum hq) hx (h.sub x hx htx k q hq)
  · intro x hx htx hxv
    replace hx := hold x hx hxv
    rw [idxOf_append_of_mem h.top_mem, idxOf_append_of_mem hx] at htx
    exact ((h.down x hx htx).congr fun z _ _ _ ↦ hn.routing z x hx).append hx
  · rw [hn.role]
    exact h.role
  · refine Frames.append (h.frames.congr h.linked (fun q hq ↦ ?_) fun z _ x hx _ _ ↦
      hn.routing z x hx) h.linked h.top_mem hv
    rw [hn.others q fun heq ↦ h.linked.notMem (heq ▸ hq)]
    exact ⟨rfl, rfl⟩

include h hwire hv hroom hn in
theorem base_named (hfresh : (mem v).topology = axiomTopologyInit)
    (hup : nic.initMasterNode = masterId → (mem v).routing masterId = axiomCodifyRoutingMask j) :
    Base net master masterId (order ++ [v]) v ((top, i) :: stack) mem' := by
  have hback := net.symm hwire
  have hvt : v ≠ top := net.ne hback
  have hmemv : v ∈ order ++ [v] := by simp
  have hmemt : top ∈ order ++ [v] := List.mem_append_left _ h.top_mem
  have hlt : (order ++ [v]).idxOf top < (order ++ [v]).idxOf v := by
    rw [idxOf_append_of_mem h.top_mem, idxOf_append_new hv]
    exact List.idxOf_lt_length_of_mem h.top_mem
  have hsound := (h.sound top h.top_mem).append (v := v)
  refine
    { nodup := ?_, head := ?_, room := hroom, top_mem := hmemv
      linked := ⟨⟨j, hwire⟩, hmemt, hlt, h.linked.append h.top_mem⟩, sound := ?_
      mutual_ := ?_, finished := ?_, ids := ?_, frames := h.frames_named hwire hv hroom hn
      up := ?_ }
  · exact h.nodup.append (List.nodup_singleton v) (by simpa using hv)
  · rw [List.head?_append, h.head]
    rfl
  · intro w hw
    by_cases hwt : w = top
    · subst hwt
      rw [hn.topology]
      exact hsound.link hmemt hmemv hwire hback
    · rw [hn.others w hwt]
      rcases List.mem_append.mp hw with hw | hw
      · exact (h.sound w hw).append
      · obtain rfl : w = v := by simpa using hw
        rw [hfresh]
        exact sound_init
  · intro w hw
    by_cases hwt : w = top
    · subst hwt
      rw [hn.topology]
      exact (h.mutual_ w h.top_mem).link hsound hroom hmemt hmemv hwire hback
    · rw [hn.others w hwt]
      rcases List.mem_append.mp hw with hw | hw
      · exact h.mutual_ w hw
      · obtain rfl : w = v := by simpa using hw
        rw [hfresh]
        exact mutual_init
  · intro x hx hxv hxs k y b hxy
    simp only [Stack.nodes_cons, List.mem_cons, not_or] at hxs
    have hx : x ∈ order := by simpa [hxv] using hx
    obtain ⟨hy, hlt⟩ := h.finished x hx hxs.1 hxs.2 k y b hxy
    refine ⟨List.mem_append_left _ hy, ?_⟩
    rintro (rfl | hys)
    · exact absurd hy hv
    · rw [idxOf_append_of_mem hy, idxOf_append_of_mem hx]
      exact hlt (by simpa using hys)
  · intro w hw hwv
    have hw : w ∈ order := by simpa [hwv] using hw
    rw [ident_append_of_mem hw]
    by_cases hwt : w = top
    · subst hwt
      exact hn.nodeId.trans h.id
    · rw [hn.others w hwt]
      exact h.ids w hw hwt
  · intro hm w hw hwm
    rcases List.mem_append.mp hw with hw | hw
    · obtain ⟨k, q, b, hwq, hq, hqw, hroute⟩ := h.up hm w hw hwm
      refine ⟨k, q, b, hwq, List.mem_append_left _ hq, ?_, ?_⟩
      · rwa [idxOf_append_of_mem hw, idxOf_append_of_mem hq]
      · have heq := hn.routing w master h.master_mem
        rw [h.ident_master] at heq
        rw [heq, hroute]
    · obtain rfl : w = v := by simpa using hw
      refine ⟨j, top, i, hback, hmemt, hlt, ?_⟩
      rw [hn.others w hvt]
      exact hup hm

end Named

/-- A new neighbour is given the next number and recorded as a child. -/
theorem name (h : Exploring net master masterId order top stack i mem)
    (hwire : net.wire top i = some (v, j)) (hv : v ∉ order)
    (hroom : masterId + order.length < 255)
    (hnext : (mem top).nextId = masterId + order.length)
    (hfresh : (mem v).topology = axiomTopologyInit)
    (hup : nic.initMasterNode = masterId → (mem v).routing masterId = axiomCodifyRoutingMask j)
    (hmem' : mem' = Function.update mem top { mem top with
      routing := Function.update (mem top).routing (mem top).nextId (axiomCodifyRoutingMask i)
      topology := (mem top).topology.link nic.interfacesNum (mem top).nodeId i
        (mem top).nextId j }) :
    Starting net master masterId (order ++ [v]) v top i stack mem' := by
  have hn := h.names hv hnext hmem'
  have hroom' : masterId + (order ++ [v]).length ≤ 255 := by
    simp only [List.length_append, List.length_singleton]
    omega
  refine
    { toBase := h.base_named hwire hv hroom' hn hfresh hup, fresh := ?_, last := ?_
      next := hn.nextId, paired := ?_, dfs := ?_ }
  · rw [hn.others v (net.ne (net.symm hwire)), hfresh]
  · rw [idxOf_append_new hv]
    simp
  · rintro w (rfl | hw)
    · rw [hn.topology]
      exact ((h.paired w (.inl rfl)).append (h.sound w h.top_mem) hv).link
        (h.sound w h.top_mem).append hroom' (List.mem_append_left _ h.top_mem) (by simp) hwire
    · rw [hn.others w fun heq ↦ h.linked.notMem (heq ▸ hw)]
      exact (h.paired w (.inr hw)).append (h.sound w (h.stack_mem hw)) hv
  · have hpush : (portGraph net).explore top i order =
        (portGraph net).explore top (i + 1)
          ((portGraph net).explore v 0 (order ++ [v])) :=
      (portGraph net).explore_push h.nodup (net.lt_ifNumber hwire)
        (by simp [portGraph, hwire]) hv
    have hdfs := h.dfs
    rw [PortGraph.resume, hpush] at hdfs
    exact hdfs

end Exploring

namespace Starting

theorem named (h : Starting net master masterId order top p i st mem)
    (ht : ∀ w, (mem' w).topology = (mem w).topology)
    (hr : ∀ w, (mem' w).routing = (mem w).routing)
    (hne : ∀ w, w ≠ top → mem' w = mem w) :
    Starting net master masterId order top p i st mem' where
  toBase := h.toBase.congr (fun w _ ↦ ht w) (fun w _ hw ↦ by rw [hne w hw])
    (fun w _ hw ↦ by rw [hne w hw]) fun w _ x _ _ ↦ by rw [hr w]
  fresh := by
    rw [ht top]
    exact h.fresh
  last := h.last
  next := by
    have hp : p ≠ top := by
      rintro rfl
      exact h.linked.notMem (by simp)
    rw [hne p hp]
    exact h.next
  paired w hw := by
    rw [ht w]
    exact h.paired w hw
  dfs := h.dfs

/-- The new board begins with an empty matrix. -/
theorem begins (h : Starting net master masterId order top p i st mem)
    (hwire : net.wire p i = some (top, j)) (hid : (mem top).nodeId = ident masterId order top)
    {mask : IfMask} {next : ℕ}
    (hmem' : mem' = Function.update mem top { mem top with
      role := .slave j
      nextId := next
      routing := Function.update (mem top).routing (mem top).nodeId mask }) :
    Exploring net master masterId order top ((p, i) :: st) 0 mem' := by
  have hne : ∀ w, w ≠ top → mem' w = mem w := by
    intro w hw
    rw [hmem', Function.update_of_ne hw]
  have ht : ∀ w, (mem' w).topology = (mem w).topology := by
    intro w
    by_cases hw : w = top
    · subst hw
      simp [hmem']
    · rw [hne w hw]
  -- only the own route changes
  have hrouting : ∀ w, ∀ x ∈ order, w ≠ x → (mem' w).routing (ident masterId order x) =
      (mem w).routing (ident masterId order x) := by
    intro w x hx hwx
    by_cases hw : w = top
    · subst hw
      have hkey : ident masterId order x ≠ (mem w).nodeId := by
        rw [hid]
        exact fun heq ↦ hwx (ident_inj hx heq).symm
      simp [hmem', Function.update_of_ne hkey]
    · rw [hne w hw]
  have hlast : ∀ x ∈ order, ¬ order.idxOf top < order.idxOf x := by
    intro x hx
    have hlen := List.idxOf_lt_length_of_mem hx
    have hlast := h.last
    omega
  exact
    { toBase := h.toBase.congr (fun w _ ↦ ht w) (fun w _ hw ↦ by rw [hne w hw])
        (fun w _ hw ↦ by rw [hne w hw]) fun w _ x hx hwx ↦ hrouting w x hx hwx
      role := ⟨j, hwire, by simp [hmem']⟩
      id := by
        rw [← hid]
        simp [hmem']
      paired := by
        rintro w (rfl | hw)
        · rw [ht w, h.fresh]
          exact paired_init
        · rw [ht w]
          exact h.paired w (by simpa using hw)
      below := fun k hk ↦ absurd hk (Nat.not_lt_zero k)
      sub := fun x hx hlt ↦ absurd hlt (hlast x hx)
      down := by
        intro x hx hle
        have hidx : order.idxOf top = order.idxOf x := by
          have hlt := hlast x hx
          omega
        obtain rfl := (List.idxOf_inj h.top_mem).mp hidx
        exact .here
      dfs := h.dfs }

end Starting

/-! ## Leaving a board -/

theorem Exploring.knowsAll_top (h : Exploring net master masterId order top stack i mem)
    (hi : net.ifNumber top ≤ i) {x : V} (hx : x ∈ order)
    (hle : order.idxOf top ≤ order.idxOf x) :
    KnowsAll net masterId order (mem top).topology x := by
  rcases hle.lt_or_eq with hlt | heq
  · exact h.sub x hx hlt
  · obtain rfl := (List.idxOf_inj h.top_mem).mp heq
    intro k q hwire
    exact h.below k ((net.lt_ifNumber hwire).trans_le hi) q hwire

/-- Past its last interface a board knows all links of its part of the network, and
reports them. -/
theorem Exploring.reports (h : Exploring net master masterId order top ((p, j) :: st) i mem)
    (hi : net.ifNumber top ≤ i) (hnext : (mem top).nextId + 1 = masterId + order.length) :
    Reporting net master masterId order top p j st (topologyReport nic (mem top).topology) mem where
  toBase := h.toBase
  role := h.role
  id := h.id
  next := hnext
  knows _ hx hle := h.knowsAll_top hi hx hle
  pairedTop := h.paired top (.inl rfl)
  paired w hw := h.paired w (.inr (by simp [hw]))
  merging x hx k y b hwire hknows :=
    .inl (h.paired p (.inr (by simp)) x hx k y b hwire hknows)
  truthful _ hm := truthful_of_mem_topologyReport h.room (h.sound top h.top_mem)
    (h.mutual_ top h.top_mem) hm
  covers _ hx _ hk hknows := .inr (exists_mem_topologyReport h.room hx hk hknows)
  down := h.down
  dfs := by
    have hdfs := h.dfs
    rw [PortGraph.resume, (portGraph net).explore_of_le hi] at hdfs
    exact hdfs

namespace Reporting

theorem parent_ne (h : Reporting net master masterId order top p i st pend mem) : p ≠ top := by
  rintro rfl
  exact h.linked.notMem (by simp)

theorem parent_notMem (h : Reporting net master masterId order top p i st pend mem) :
    p ∉ st.nodes :=
  h.linked.2.2.2.notMem

theorem read {m : Msg} (h : Reporting net master masterId order top p i st (m :: pend) mem)
    (hmem' : mem' = Function.update mem p { mem p with
      topology := (mem p).topology.link nic.interfacesNum m.srcNode m.srcIf m.dstNode m.dstIf }) :
    Reporting net master masterId order top p i st pend mem' := by
  obtain ⟨_, x, hx, y, hy, a, b, hxy, hyx, hsrc, hdst, hknowx, hknowy⟩ :=
    h.truthful m (by simp)
  rw [hsrc, hdst] at hmem'
  have hp := h.stack_mem (q := p) (by simp)
  have hparent : (mem' p).topology = (mem p).topology.link nic.interfacesNum
      (ident masterId order x) m.srcIf (ident masterId order y) m.dstIf := by
    simp [hmem']
  have hne : ∀ w, w ≠ p → mem' w = mem w := by
    intro w hw
    rw [hmem', Function.update_of_ne hw]
  have htop : mem' top = mem top := hne top h.parent_ne.symm
  have hrouting : ∀ w, (mem' w).routing = (mem w).routing := by
    intro w
    by_cases hw : w = p
    · subst hw
      simp [hmem']
    · rw [hne w hw]
  have hmono : ∀ {z : V} {k : ℕ}, k < nic.interfacesNum →
      Knows masterId order (mem p).topology z k →
        Knows masterId order (mem' p).topology z k :=
    fun hk hz ↦ h.knows_link hx hy hxy hyx hmem' hp hk hz
  refine
    { toBase := h.toBase.link hx hy hxy hyx hmem', role := ?_, id := ?_, next := ?_
      knows := ?_, pairedTop := ?_, paired := ?_, merging := ?_, truthful := ?_, covers := ?_
      down := ?_, dfs := h.dfs }
  · rw [htop]
    exact h.role
  · rw [htop]
    exact h.id
  · rw [htop]
    exact h.next
  · rw [htop]
    exact h.knows
  · rw [htop]
    exact h.pairedTop
  · intro w hw
    rw [hne w fun heq ↦ h.parent_notMem (heq ▸ hw)]
    exact h.paired w hw
  · intro z hz k z' k' hzz hknows
    rw [htop]
    rw [hparent] at hknows
    rcases link_knows_cases hx hy hxy hyx (net.lt_interfacesNum hzz) hknows with
      hold | ⟨rfl, rfl⟩ | ⟨rfl, rfl⟩
    · rcases h.merging z hz k z' k' hzz hold with hk | hk
      · exact .inl (hmono (net.lt_interfacesNum (net.symm hzz)) hk)
      · exact .inr hk
    · exact .inr (h.pairedTop z hz _ z' k' hzz hknowx)
    · exact .inr (h.pairedTop z hz _ z' k' hzz hknowy)
  · intro m' hm'
    rw [htop]
    exact h.truthful m' (by simp [hm'])
  · intro z hz k hk hknows
    rw [htop] at hknows
    rcases h.covers z hz k hk hknows with hold | ⟨m', hm', hsrc', hif'⟩
    · exact .inl (hmono hk hold)
    · rcases List.mem_cons.mp hm' with rfl | hm'
      · obtain rfl := ident_inj hx (hsrc.symm.trans hsrc')
        subst hif'
        rw [hparent]
        exact .inl (link_knows_left h.room hx hy hxy hyx)
      · exact .inr ⟨m', hm', hsrc', hif'⟩
  · intro z hz hle
    exact (h.down z hz hle).congr fun w _ _ _ ↦ by rw [hrouting w]

/-- What happens to the memories when `p` goes on after its child `top`. -/
structure Closes (masterId : ℕ) (order : List V) (top p : V) (i : ℕ) (mem mem' : V → Mem) :
    Prop where
  others : ∀ w, w ≠ p → mem' w = mem w
  topology : ∀ w, (mem' w).topology = (mem w).topology
  role : ∀ w, (mem' w).role = (mem w).role
  nodeId : ∀ w, (mem' w).nodeId = (mem w).nodeId
  /-- routes to boards found before the child are untouched -/
  before : ∀ w, ∀ x ∈ order, order.idxOf x < order.idxOf top →
    (mem' w).routing (ident masterId order x) = (mem w).routing (ident masterId order x)
  child : ∀ x ∈ order, order.idxOf top ≤ order.idxOf x →
    (mem' p).routing (ident masterId order x) = axiomCodifyRoutingMask i

omit [Fintype V] in
theorem closes_of_update {next : ℕ} (hnext : next + 1 = masterId + order.length)
    (hmem' : mem' = Function.update mem p { mem p with
      nextId := next
      routing := fun k ↦ if ident masterId order top ≤ k ∧ k ≤ next
        then axiomCodifyRoutingMask i else (mem p).routing k }) :
    Closes masterId order top p i mem mem' := by
  have hne : ∀ w, w ≠ p → mem' w = mem w := by
    intro w hw
    rw [hmem', Function.update_of_ne hw]
  have hsame : ∀ w, (mem' w).topology = (mem w).topology ∧ (mem' w).role = (mem w).role ∧
      (mem' w).nodeId = (mem w).nodeId := by
    intro w
    by_cases hw : w = p
    · subst hw
      simp [hmem']
    · rw [hne w hw]
      exact ⟨rfl, rfl, rfl⟩
  refine ⟨hne, fun w ↦ (hsame w).1, fun w ↦ (hsame w).2.1, fun w ↦ (hsame w).2.2,
    fun w x hx hxt ↦ ?_, fun x hx hle ↦ ?_⟩
  · by_cases hw : w = p
    · subst hw
      have hkey : ¬ (ident masterId order top ≤ ident masterId order x ∧
          ident masterId order x ≤ next) := by
        unfold ident
        omega
      simp [hmem', hkey]
    · rw [hne w hw]
  · have hkey : ident masterId order top ≤ ident masterId order x ∧
        ident masterId order x ≤ next := by
      have hlen := List.idxOf_lt_length_of_mem hx
      unfold ident
      omega
    simp [hmem', hkey]

theorem base_closed (h : Reporting net master masterId order top p i st [] mem)
    (hc : Closes masterId order top p i mem mem') :
    Base net master masterId order p st mem' := by
  obtain ⟨-, hp, hlt, hlinked⟩ := h.linked
  obtain ⟨-, -, hframes⟩ := h.frames
  refine
    { nodup := h.nodup, head := h.head, room := h.room, top_mem := hp, linked := hlinked
      sound := ?_, mutual_ := ?_, finished := ?_, ids := ?_, frames := ?_, up := ?_ }
  · intro w hw
    rw [hc.topology w]
    exact h.sound w hw
  · intro w hw
    rw [hc.topology w]
    exact h.mutual_ w hw
  · intro x hx hxp hxs k y b hxy
    by_cases hxt : x = top
    · -- the board just left knows all its neighbours
      subst hxt
      have hy := (h.sound x h.top_mem).mem_of_knows hx hxy (h.knows x hx le_rfl k _ hxy)
      refine ⟨hy, ?_⟩
      rintro (rfl | hys)
      · exact hlt
      · exact (hlinked.idxOf_lt hys).2.trans hlt
    · obtain ⟨hy, hback⟩ := h.finished x hx hxt (by simp [hxp, hxs]) k y b hxy
      refine ⟨hy, ?_⟩
      rintro (rfl | hys)
      · exact hback (.inr (by simp))
      · exact hback (.inr (by simp [hys]))
  · intro w hw hwp
    rw [hc.nodeId w]
    by_cases hwt : w = top
    · subst hwt
      exact h.id
    · exact h.ids w hw hwt
  · refine hframes.congr hlinked (fun q _ ↦ ⟨hc.topology q, hc.role q⟩) ?_
    intro z _ x hx hxp _
    exact hc.before z x hx (hxp.trans hlt)
  · intro hm w hw hwm
    obtain ⟨k, q, b, hwq, hq, hqw, hroute⟩ := h.up hm w hw hwm
    have hmt : order.idxOf master < order.idxOf top := by
      rw [h.idxOf_master]
      omega
    have heq := hc.before w master h.master_mem hmt
    rw [h.ident_master] at heq
    exact ⟨k, q, b, hwq, hq, hqw, heq.trans hroute⟩

theorem known (h : Reporting net master masterId order top p i st [] mem) {x : V}
    (hx : x ∈ order) {k : ℕ} (hk : k < nic.interfacesNum)
    (hknows : Knows masterId order (mem top).topology x k) :
    Knows masterId order (mem p).topology x k := by
  rcases h.covers x hx k hk hknows with hold | ⟨m, hm, _⟩
  · exact hold
  · simp at hm

/-- The parent routes the child's part of the numbering to it, and goes on with its next
interface. -/
theorem closes (h : Reporting net master masterId order top p i st [] mem)
    {next : ℕ} (hnext : next + 1 = masterId + order.length)
    (hmem' : mem' = Function.update mem p { mem p with
      nextId := next
      routing := fun k ↦ if ident masterId order top ≤ k ∧ k ≤ next
        then axiomCodifyRoutingMask i else (mem p).routing k }) :
    Exploring net master masterId order p st (i + 1) mem' := by
  have hc := closes_of_update hnext hmem'
  obtain ⟨⟨a, hwire⟩, hp, hlt, -⟩ := h.linked
  obtain ⟨hframe, hrole, -⟩ := h.frames
  refine
    { toBase := h.base_closed hc, role := ?_, id := ?_, paired := ?_, below := ?_, sub := ?_
      down := ?_, dfs := h.dfs }
  · rw [hc.role p]
    exact hrole
  · rw [hc.nodeId p]
    exact h.ids p hp h.parent_ne
  · rintro w (rfl | hw)
    · rw [hc.topology w]
      intro x hx k y b hxy hknows
      rcases h.merging x hx k y b hxy hknows with hk | hk
      · exact hk
      · exact h.known ((h.sound w hp).mem_of_knows hx hxy hknows)
          (net.lt_interfacesNum (net.symm hxy)) hk
    · rw [hc.topology w]
      exact h.paired w hw
  · rw [hc.topology p]
    intro k hk q hq
    rcases Nat.lt_succ_iff_lt_or_eq.mp hk with hk | rfl
    · exact hframe.below k hk q hq
    · exact hframe.child
  · rw [hc.topology p]
    intro x hx hpx k q hq
    rcases lt_or_ge (order.idxOf x) (order.idxOf top) with hxt | htx
    · exact hframe.sub x hx hpx hxt k q hq
    · exact h.known hx (net.lt_interfacesNum hq) (h.knows x hx htx k q hq)
  · intro x hx hpx
    rcases lt_or_ge (order.idxOf x) (order.idxOf top) with hxt | htx
    · exact (hframe.down x hx hpx hxt).congr fun z _ _ _ ↦ hc.before z x hx hxt
    · refine .hop hwire (hc.child x hx htx) hlt ((h.down x hx htx).congr ?_)
      intro z _ htz _
      have hzp : z ≠ p := by
        rintro rfl
        omega
      rw [hc.others z hzp]

end Reporting

end AxiomApps.Discovery
