import AxiomApps.Discovery.Routes
import AxiomApps.Lib.PortDfs

/-!
# The stages of a fault-free discovery

Although all boards run at once, a fault-free discovery is one depth-first search
passed from board to board. Its state is described by the boards found so far in the
order of their ids, the board the search is at, and the stack of boards waiting for
it, each with the interface its child is behind. `Base` collects what holds of the
memories in every stage; `Exploring`, `Starting` and `Reporting` add what holds while
the search is at a board, enters one, and leaves one.
-/

namespace AxiomApps.Discovery

open FifoNet

variable {nic : NicLimits} {V : Type*} [DecidableEq V]

def portGraph (net : Network nic V) : PortGraph V where
  deg := net.ifNumber
  next u i := (net.wire u i).map Prod.fst

/-- The boards waiting for a child, innermost first, with the child's interface. -/
abbrev Stack (V : Type*) := List (V × ℕ)

def Stack.nodes (stack : Stack V) : List V := stack.map Prod.fst

/-- The control points of the boards the search is not at. -/
def restPc (masterId : ℕ) (order : List V) : V → Stack V → V → Pc
  | _, [], w => if w ∈ order then .returned else .listen
  | c, (p, i) :: st, w =>
      if w = p then .waitEnd i (ident masterId order c) else restPc masterId order p st w

variable (net : Network nic V) (master : V) (masterId : ℕ)

/-- Each waiting board is wired to the next one and was found before it; the search
started at the master. -/
def Linked (order : List V) : V → Stack V → Prop
  | c, [] => c = master
  | c, (p, i) :: st => (∃ j, net.wire p i = some (c, j)) ∧ p ∈ order ∧
      order.idxOf p < order.idxOf c ∧ Linked order p st

def HasRole (role : Role) (c : V) : Stack V → Prop
  | [] => role = .master
  | (p, i) :: _ => ∃ j, net.wire p i = some (c, j) ∧ role = .slave j

def KnowsAll (order : List V) (t : Topology) (x : V) : Prop :=
  ∀ k q, net.wire x k = some q → Knows masterId order t x k

/-- What holds of `p` while it waits for `c` behind its interface `i`: it knows its
own links so far and those of all boards found between itself and `c`. -/
structure Frame (order : List V) (mem : V → Mem) (p : V) (i : ℕ) (c : V) : Prop where
  below : ∀ k < i, ∀ q, net.wire p k = some q → Knows masterId order (mem p).topology p k
  child : Knows masterId order (mem p).topology p i
  sub : ∀ x ∈ order, order.idxOf p < order.idxOf x → order.idxOf x < order.idxOf c →
    KnowsAll net masterId order (mem p).topology x
  down : ∀ x ∈ order, order.idxOf p ≤ order.idxOf x → order.idxOf x < order.idxOf c →
    Down net masterId order mem x p

def Frames (order : List V) (mem : V → Mem) : V → Stack V → Prop
  | _, [] => True
  | c, (p, i) :: st => Frame net masterId order mem p i c ∧ HasRole net (mem p).role p st ∧
      Frames order mem p st

structure Base (order : List V) (top : V) (stack : Stack V) (mem : V → Mem) : Prop where
  nodup : order.Nodup
  head : order.head? = some master
  room : masterId + order.length ≤ 255
  top_mem : top ∈ order
  linked : Linked net master order top stack
  sound : ∀ w ∈ order, Sound net masterId order (mem w).topology
  mutual_ : ∀ w ∈ order, Mutual nic (mem w).topology
  /-- the neighbours of a board that is done have been found, and those the search
  still has to come back to were found before it -/
  finished : ∀ x ∈ order, x ≠ top → x ∉ stack.nodes → ∀ i y j, net.wire x i = some (y, j) →
    y ∈ order ∧ (y = top ∨ y ∈ stack.nodes → order.idxOf y < order.idxOf x)
  ids : ∀ w ∈ order, w ≠ top → (mem w).nodeId = ident masterId order w
  frames : Frames net masterId order mem top stack
  up : nic.initMasterNode = masterId → ∀ w ∈ order, w ≠ master → ∃ j p i,
    net.wire w j = some (p, i) ∧ p ∈ order ∧ order.idxOf p < order.idxOf w ∧
      (mem w).routing masterId = axiomCodifyRoutingMask j

section Search

variable [Fintype V]

/-- The rest of the search, once the interfaces the stack waits on are done. -/
def pending (stack : Stack V) : List (V × ℕ) := stack.map fun f ↦ (f.1, f.2 + 1)

/-- The search is at `top`, whose interfaces below `i` are done. -/
structure Exploring (order : List V) (top : V) (stack : Stack V) (i : ℕ) (mem : V → Mem) : Prop
    extends Base net master masterId order top stack mem where
  role : HasRole net (mem top).role top stack
  id : (mem top).nodeId = ident masterId order top
  paired : ∀ w, w = top ∨ w ∈ stack.nodes → Paired net masterId order (mem w).topology
  below : ∀ k < i, ∀ q, net.wire top k = some q →
    Knows masterId order (mem top).topology top k
  sub : ∀ x ∈ order, order.idxOf top < order.idxOf x →
    KnowsAll net masterId order (mem top).topology x
  down : ∀ x ∈ order, order.idxOf top ≤ order.idxOf x → Down net masterId order mem x top
  dfs : (portGraph net).resume ((top, i) :: pending stack) order =
    (portGraph net).preorder master

/-- `top` has been given its number by `p` and has not begun. -/
structure Starting (order : List V) (top p : V) (i : ℕ) (st : Stack V) (mem : V → Mem) : Prop
    extends Base net master masterId order top ((p, i) :: st) mem where
  fresh : (mem top).topology = axiomTopologyInit
  last : order.idxOf top + 1 = order.length
  next : (mem p).nextId = ident masterId order top
  paired : ∀ w, w = p ∨ w ∈ st.nodes → Paired net masterId order (mem w).topology
  dfs : (portGraph net).resume ((top, 0) :: pending ((p, i) :: st)) order =
    (portGraph net).preorder master

/-- `top` is done and reports to `p`; the messages `pend` of the report have not been
read yet. -/
structure Reporting (order : List V) (top p : V) (i : ℕ) (st : Stack V) (pend : List Msg)
    (mem : V → Mem) : Prop extends Base net master masterId order top ((p, i) :: st) mem where
  role : HasRole net (mem top).role top ((p, i) :: st)
  id : (mem top).nodeId = ident masterId order top
  next : (mem top).nextId + 1 = masterId + order.length
  knows : ∀ x ∈ order, order.idxOf top ≤ order.idxOf x →
    KnowsAll net masterId order (mem top).topology x
  pairedTop : Paired net masterId order (mem top).topology
  paired : ∀ w ∈ st.nodes, Paired net masterId order (mem w).topology
  /-- while it reads the report, `p` may hold one end of a link without the other,
  but then `top` holds both -/
  merging : ∀ x ∈ order, ∀ k y j, net.wire x k = some (y, j) →
    Knows masterId order (mem p).topology x k →
      Knows masterId order (mem p).topology y j ∨ Knows masterId order (mem top).topology y j
  truthful : ∀ m ∈ pend, Truthful net masterId order (mem top).topology m
  covers : ∀ x ∈ order, ∀ k < nic.interfacesNum, Knows masterId order (mem top).topology x k →
    Knows masterId order (mem p).topology x k ∨
      ∃ m ∈ pend, m.srcNode = ident masterId order x ∧ m.srcIf = k
  down : ∀ x ∈ order, order.idxOf top ≤ order.idxOf x → Down net masterId order mem x top
  dfs : (portGraph net).resume (pending ((p, i) :: st)) order = (portGraph net).preorder master

end Search

/-! ## The path of the search -/

section Path

variable {net master masterId} {order : List V} {top c : V} {stack st : Stack V}

omit [DecidableEq V] in
@[simp] theorem Stack.nodes_cons (f : V × ℕ) : Stack.nodes (f :: st) = f.1 :: st.nodes := rfl

omit [DecidableEq V] in
@[simp] theorem Stack.nodes_nil : Stack.nodes ([] : Stack V) = [] := rfl

theorem Linked.idxOf_lt (h : Linked net master order c st) {p : V} (hp : p ∈ st.nodes) :
    p ∈ order ∧ order.idxOf p < order.idxOf c := by
  induction st generalizing c with
  | nil => simp at hp
  | cons f st ih =>
      obtain ⟨q, i⟩ := f
      obtain ⟨_, hq, hlt, hrest⟩ := h
      rcases List.mem_cons.mp hp with rfl | hp
      · exact ⟨hq, hlt⟩
      · obtain ⟨hmem, hlt'⟩ := ih hrest hp
        exact ⟨hmem, hlt'.trans hlt⟩

theorem Linked.notMem (h : Linked net master order c st) : c ∉ st.nodes :=
  fun hc ↦ absurd (h.idxOf_lt hc).2 (lt_irrefl _)

theorem Linked.append {v : V} (h : Linked net master order c st) (hc : c ∈ order) :
    Linked net master (order ++ [v]) c st := by
  induction st generalizing c with
  | nil => exact h
  | cons f st ih =>
      obtain ⟨q, i⟩ := f
      obtain ⟨hwire, hq, hlt, hrest⟩ := h
      refine ⟨hwire, List.mem_append_left _ hq, ?_, ih hrest hq⟩
      rwa [idxOf_append_of_mem hq, idxOf_append_of_mem hc]

/-! ## Control points -/

theorem restPc_of_notMem {w : V} (hstack : ∀ p ∈ stack.nodes, p ∈ order) (hw : w ∉ order) :
    restPc masterId order c stack w = .listen := by
  induction stack generalizing c with
  | nil => simp [restPc, hw]
  | cons f st ih =>
      obtain ⟨q, i⟩ := f
      have hne : w ≠ q := by
        rintro rfl
        exact hw (hstack _ (by simp))
      rw [restPc, if_neg hne]
      exact ih fun p hp ↦ hstack p (by simp [hp])

theorem restPc_of_notMem_stack {w : V} (hw : w ∉ stack.nodes) :
    restPc masterId order c stack w = if w ∈ order then .returned else .listen := by
  induction stack generalizing c with
  | nil => rfl
  | cons f st ih =>
      obtain ⟨q, i⟩ := f
      simp only [Stack.nodes_cons, List.mem_cons, not_or] at hw
      rw [restPc, if_neg hw.1]
      exact ih hw.2

theorem restPc_of_mem_stack {w : V} (hw : w ∈ stack.nodes) :
    ∃ i startNode, restPc masterId order c stack w = .waitEnd i startNode := by
  induction stack generalizing c with
  | nil => simp at hw
  | cons f st ih =>
      obtain ⟨q, i⟩ := f
      by_cases hq : w = q
      · exact ⟨i, ident masterId order c, by rw [restPc, if_pos hq]⟩
      · rw [restPc, if_neg hq]
        exact ih (by simpa [hq] using hw)

theorem restPc_append {v w : V} (hc : c ∈ order) (hstack : ∀ p ∈ stack.nodes, p ∈ order)
    (hw : w ≠ v) :
    restPc masterId (order ++ [v]) c stack w = restPc masterId order c stack w := by
  induction stack generalizing c with
  | nil => simp [restPc, hw]
  | cons f st ih =>
      obtain ⟨q, i⟩ := f
      rw [restPc, restPc, ident_append_of_mem hc,
        ih (hstack q (by simp)) fun p hp ↦ hstack p (by simp [hp])]

end Path

end AxiomApps.Discovery
