import AxiomApps.Lib.IntLoop
import AxiomApps.Nic
import AxiomApps.Rdma.Payload

/-!
# The RDMA region of axiom-rdma

For a remote read or write `main` allocates a region, for the local modes it maps the RDMA zone
of the node. The master uses the region from its own offset on and every other node from the
slave's. Sizes and offsets are 32 bits wide, with an addition in 32 bits where the size of the
region is computed or checked.
-/

namespace AxiomApps.Rdma

/-- `AXIOM_NULL_NODE` as a node id. -/
def nullNode : BitVec 8 := .ofNat 8 axiomNullNode

def getScale : Char → ℕ
  | 'b' | 'B' => 0
  | 'k' | 'K' => 10
  | 'm' | 'M' => 20
  | 'G' | 'g' => 30
  | _ => 0

/-! ## Options -/

/-- What `sscanf` with `"%" SCNu32 "%c"` makes of an argument: it stops before a number, at the
end of an empty text, or it reads a number and the character after it. -/
inductive Amount
  | mismatch
  | empty
  | value (n : BitVec 32) (charScale : Option Char)
  deriving DecidableEq, Repr

/-- What is stored over `old`, none where `main` complains. -/
def Amount.store (old : BitVec 32) : Amount → Option (BitVec 32)
  | .mismatch => none
  | .empty => some (old <<< getScale 'b')
  | .value n charScale => some (n <<< getScale (charScale.getD 'b'))

/-- The number an argument stands for; an empty one stands for the one in force. -/
def Amount.asked (old : ℕ) : Amount → Option ℕ
  | .mismatch => none
  | .empty => some old
  | .value n charScale => some (n.toNat * 2 ^ getScale (charScale.getD 'b'))

/-- What is stored is the number asked for. -/
def Amount.Exact (a : Amount) : Prop :=
  ∀ old, (a.store old).map BitVec.toNat = a.asked old.toNat

/-- The scaled number has 32 bits. -/
def Amount.fits : Amount → Bool
  | .mismatch | .empty => true
  | .value n charScale => n.toNat * 2 ^ getScale (charScale.getD 'b') < 2 ^ 32

theorem Amount.exact_iff {a : Amount} : a.Exact ↔ a.fits = true := by
  cases a with
  | mismatch => simp [Exact, store, asked, fits]
  | empty => simp [Exact, store, asked, fits, getScale]
  | value n charScale =>
      simp [Exact, store, asked, fits, BitVec.toNat_shiftLeft, Nat.shiftLeft_eq]

/-- The options, with what `sscanf` makes of their arguments. -/
inductive Opt
  | mode (mode : Option Mode)
  | sid (slaveId : Option (BitVec 8))
  | mid (masterId : Option (BitVec 8))
  | soff (slaveOffset : Amount)
  | moff (masterOffset : Amount)
  | size (payloadSize : Amount)
  | port (port : Option (BitVec 8))
  | verbose
  | version
  | help
  deriving DecidableEq, Repr

def Opt.fits : Opt → Bool
  | .soff a | .moff a | .size a => a.fits
  | _ => true

/-- The number of an option is stored as it was asked for. -/
def Opt.Exact : Opt → Prop
  | .soff a | .moff a | .size a => a.Exact
  | _ => True

theorem Opt.exact_iff {o : Opt} : o.Exact ↔ o.fits = true := by
  cases o with
  | soff a | moff a | size a => exact Amount.exact_iff
  | _ => simp [Exact, fits]

/-- `axrdma_status_t`, with the global `verbose`. -/
structure Status where
  mode : Mode := .other
  localId : BitVec 8 := 0
  masterId : BitVec 8 := nullNode
  slaveId : BitVec 8 := nullNode
  payloadSize : BitVec 32 := 0
  masterOffset : BitVec 32 := 0
  slaveOffset : BitVec 32 := 0
  verbose : Bool := false
  deriving DecidableEq, Repr

/-- How `main` ends before it uses the region. -/
inductive Exit
  | failed (msg : String)
  | usage
  | version
  deriving DecidableEq, Repr

/-- A value, or the message for a missing one. -/
def orFail {β : Type*} (msg : String) : Option β → Except Exit β
  | none => .error (.failed msg)
  | some b => .ok b

def setOption (s : Status) : Opt → Except Exit Status
  | .mode mode => do return { s with mode := ← orFail "wrong mode parameter" mode }
  | .sid id => do return { s with slaveId := ← orFail "wrong slave id [8bit]" id }
  | .mid id => do return { s with masterId := ← orFail "wrong master id [8bit]" id }
  | .soff a => do
      return { s with slaveOffset := ← orFail "wrong slave offset [32bit]" (a.store s.slaveOffset) }
  | .moff a => do
      return { s with
        masterOffset := ← orFail "wrong master offset [32bit]" (a.store s.masterOffset) }
  | .size a => do
      return { s with payloadSize := ← orFail "wrong payload size [16bit]" (a.store s.payloadSize) }
  | .port port => do
      let port ← orFail "wrong port" port
      if 7 < port then
        .error (.failed s!"port not allowed [{port.toNat}]; [0 <= port <= 7]\n")
      else return s
  | .verbose => return { s with verbose := true }
  | .version => .error .version
  | .help => .error .usage

/-! ## Nodes -/

/-- What the machine does where C leaves it open: the zeros of 0, and `1ll << id` for an id that
a `long long` cannot be shifted by. -/
structure Unspecified where
  ctzZero : ℤ
  clzZero : ℤ
  shift : BitVec 8 → BitVec 64

/-- What the calls of `main` return. -/
structure Calls where
  axiomOpen : Bool
  getNodeId : BitVec 8
  getNumNodes : ℤ
  getNodes : BitVec 64
  allocatorInit : ℤ
  privateMalloc : Bool
  /-- the `axrun_sync` after the allocation -/
  allocSync : ℤ
  /-- the size of the zone -/
  rdmaMmap : Option ℕ
  /-- the `axrun_sync` before the region is read -/
  dataSync : ℤ
  rdmaReadSync : Bool
  rdmaWriteSync : Bool

section Nodes

variable (u : Unspecified)

/-- `node_t` -/
def lowestNode (maskNodes : BitVec 64) : ℤ :=
  if maskNodes = 0 then u.ctzZero else maskNodes.ctz.toNat

/-- `node_l` -/
def highestNode (maskNodes : BitVec 64) : ℤ :=
  63 - if maskNodes = 0 then u.clzZero else maskNodes.clz.toNat

/-- `1ll << id` -/
def bit (id : BitVec 8) : BitVec 64 := if id < 64 then 1 <<< id.toNat else u.shift id

/-- The roles that were not given on the command line are filled in, the master's first. -/
def fillIds (maskNodes : BitVec 64) (s : Status) : Status :=
  let nodeT := lowestNode u maskNodes
  let nodeL := highestNode u maskNodes
  let s := if s.masterId = nullNode then
      { s with masterId := .ofInt 8 (if s.slaveId.toNat = nodeT then nodeL else nodeT) }
    else s
  if s.slaveId = nullNode then
    { s with slaveId := .ofInt 8 (if s.masterId.toNat = nodeL then nodeT else nodeL) }
  else s

def checkNodes (c : Calls) (s : Status) : Except Exit Status :=
  if c.getNumNodes ≠ 2 then
    .error (.failed <| "You must run this application through axiom-run on 2 nodes - " ++
      s!"nodes: {c.getNumNodes}")
  else
    let s := fillIds u c.getNodes s
    if c.getNodes ≠ bit u s.masterId ||| bit u s.slaveId then
      let nodeT := lowestNode u c.getNodes
      let nodeL := highestNode u c.getNodes
      .error (.failed <| "You must run this application through axiom-run on the same " ++
        "nodes specified in the arguments - " ++
        s!"axiom-run nodes: {nodeT}, {nodeL} - " ++
        s!"app nodes: {s.masterId.toNat}, {s.slaveId.toNat}")
    else .ok s

end Nodes

/-! ## The region -/

def max32 (a b : BitVec 32) : BitVec 32 := if a > b then a else b

/-- The modes that allocate a region. -/
def Status.remote (s : Status) : Bool := s.mode = .rdmaRead ∨ s.mode = .rdmaWrite

/-- The sum that the size of the region is set to or checked against. -/
def Status.extent (s : Status) : BitVec 32 :=
  s.payloadSize + if s.remote then max32 s.masterOffset s.slaveOffset else s.masterOffset

/-- The status the region is used with and the number of bytes at `rdma_start`. -/
def setUp (c : Calls) (s : Status) : Except Exit (Status × ℕ) :=
  if s.remote then
    if c.allocatorInit ≠ 0 then
      .error (.failed s!"axiom_allocator_init error {c.allocatorInit}")
    else if c.privateMalloc = false then
      .error (.failed s!"axiom_private_malloc error - addr: (nil) size: {s.extent.toNat}")
    else if c.allocSync < 0 then .error (.failed s!"axrun_sync error {c.allocSync}")
    else .ok (s, s.extent.toNat)
  else
    match c.rdmaMmap with
    | none => .error (.failed "rdma map failed")
    | some rdmaSize =>
        if rdmaSize < s.extent.toNat then
          .error (.failed s!"Out of RDMA zone - rdma_size: {rdmaSize}")
        else .ok ({ s with slaveId := -1 }, rdmaSize)

/-! ## Uses -/

/-- A range of the region, as offset and size. -/
abbrev Use := ℕ × ℕ

def Status.localOffset (s : Status) : ℕ :=
  (if s.localId = s.masterId then s.masterOffset else s.slaveOffset).toNat

def axrdmaStore (s : Status) : List Use := [(s.localOffset, s.payloadSize.toNat)]

/-- A turn of the dump prints one byte. -/
def dumpTurn (s : Status) (i : ℕ) (used : List Use) : Bool × List Use :=
  (true, used ++ [(s.localOffset + i, 1)])

/-- The bytes read by the loop, none if its index overflows. -/
def axrdmaDump (s : Status) : Option (List Use) :=
  if s.payloadSize = 0 then some [] else IntLoop.run 1 s.payloadSize.toNat (dumpTurn s) []

section Transfer

variable (c : Calls) (maxSize : ℕ) (s : Status)

/-- Both remote calls, on the master: whether they succeed, and the range of the master. -/
def remoteCall (ok : Bool) : Bool × List Use :=
  if s.slaveId = nullNode then (false, [])
  else if s.payloadSize = 0 ∨ maxSize < s.payloadSize.toNat then (false, [])
  else (ok, [(s.masterOffset.toNat, s.payloadSize.toNat)])

def axrdmaRead : Bool × List Use := remoteCall maxSize s c.rdmaReadSync

def axrdmaWrite : Bool × List Use := remoteCall maxSize s c.rdmaWriteSync

/-- A dump after `used`, if it is wanted. -/
def thenDump (used : List Use) (wanted : Bool) : Option (List Use) :=
  if wanted then (axrdmaDump s).map (used ++ ·) else some used

/-- The switch at the end of `main`: what this node uses of its region. -/
def transfer : Except Exit (Option (List Use)) :=
  match s.mode with
  | .rdmaRead =>
      let stored := if s.localId = s.slaveId then axrdmaStore s else []
      if c.dataSync < 0 then .ok (some stored)
      else
        let read := if s.localId = s.masterId then axrdmaRead c maxSize s else (true, [])
        .ok (thenDump s (stored ++ read.2) (read.1 && s.verbose))
  | .rdmaWrite =>
      let written := if s.localId = s.masterId then
          ((axrdmaWrite c maxSize s).1, axrdmaStore s ++ (axrdmaWrite c maxSize s).2)
        else (true, [])
      .ok (thenDump s written.2 (decide (0 ≤ c.dataSync) && written.1 && s.verbose))
  | .localDump => .ok (axrdmaDump s)
  | .localStore => .ok (thenDump s (axrdmaStore s) s.verbose)
  | .other => .error (.failed "You must specify the mode [-m]")

end Transfer

/-- A run of `main` that comes to use its region. -/
structure Run where
  status : Status
  regionSize : ℕ
  uses : Option (List Use)
  deriving DecidableEq, Repr

def main {α : Type*} (u : Unspecified) (c : Calls) (scan : α → Option UInt8) (maxSize : ℕ)
    (opts : List Opt) (args : List α) (payload : ℕ → UInt8) : Except Exit Run := do
  let s ← opts.foldlM setOption {}
  match readPayload scan .rdma s.mode maxSize s.payloadSize.toNat args payload with
  | .error msg => .error (.failed msg)
  | .ok _ =>
      if c.axiomOpen = false then .error (.failed "axiom_open()")
      else
        let s ← checkNodes u c { s with localId := c.getNodeId }
        let r ← setUp c s
        return ⟨r.1, r.2, ← transfer c maxSize r.1⟩

/-- All uses are known and lie in the first `size` bytes. -/
def Within (size : ℕ) (uses : Option (List Use)) : Prop :=
  ∃ used, uses = some used ∧ ∀ w ∈ used, w.1 + w.2 ≤ size

/-- The sum of 32 bits is the sum. -/
def Status.Exact (s : Status) : Prop :=
  s.extent.toNat = s.payloadSize.toNat +
    if s.remote then max s.masterOffset.toNat s.slaveOffset.toNat else s.masterOffset.toNat

variable {α : Type*} {u : Unspecified} {c : Calls} {scan : α → Option UInt8} {maxSize size : ℕ}
  {opts : List Opt} {args : List α} {payload : ℕ → UInt8} {s s' : Status} {run : Run}

/-! ## What `main` lets through -/

theorem exists_of_bind_eq_ok {ε β γ : Type} {x : Except ε β} {f : β → Except ε γ} {r : γ}
    (h : x >>= f = .ok r) : ∃ b, x = .ok b ∧ f b = .ok r := by
  cases x with
  | error e => cases h
  | ok b => exact ⟨b, rfl, h⟩

theorem fillIds_mode (maskNodes : BitVec 64) : (fillIds u maskNodes s).mode = s.mode := by
  simp only [fillIds]
  split_ifs <;> rfl

theorem fillIds_payloadSize (maskNodes : BitVec 64) :
    (fillIds u maskNodes s).payloadSize = s.payloadSize := by
  simp only [fillIds]
  split_ifs <;> rfl

theorem checkNodes_ok (h : checkNodes u c s = .ok s') :
    s'.mode = s.mode ∧ s'.payloadSize = s.payloadSize := by
  simp only [checkNodes] at h
  split_ifs at h
  cases h
  exact ⟨fillIds_mode _, fillIds_payloadSize _⟩

/-- Where the payload list is read, the size is one of the payload. -/
theorem readPayload_ok {prog : Program} {mode : Mode} {payloadSize : ℕ} {p : Option Payload}
    (h : readPayload scan prog mode maxSize payloadSize args payload = .ok p)
    (hmode : readsPayload prog mode = true) : payloadSize ≠ 0 ∧ payloadSize ≤ maxSize := by
  rw [readPayload, if_pos hmode] at h
  split_ifs at h with hsize
  omega

/-- The region that is left after `setUp`. -/
theorem setUp_ok (h : setUp c s = .ok (s', size)) :
    s'.mode = s.mode ∧ s'.payloadSize = s.payloadSize ∧
      (s'.remote = true → size = s'.extent.toNat) ∧
      (s'.remote = false → s'.extent.toNat ≤ size) := by
  rw [setUp] at h
  split at h
  case isTrue hremote =>
    split_ifs at h
    cases h
    exact ⟨rfl, rfl, fun _ ↦ rfl, fun hlocal ↦ absurd (hremote.symm.trans hlocal) (by decide)⟩
  case isFalse hremote =>
    split at h
    case h_1 => cases h
    case h_2 rdmaSize _ =>
      split_ifs at h with hsize
      cases h
      exact ⟨rfl, rfl, fun hrem ↦ absurd hrem hremote, fun _ ↦ Nat.le_of_not_lt hsize⟩

/-- What is known of a run that comes to use its region. -/
theorem main_ok (h : main u c scan maxSize opts args payload = .ok run) :
    transfer c maxSize run.status = .ok run.uses ∧
      (readsPayload .rdma run.status.mode = true →
        run.status.payloadSize.toNat ≠ 0 ∧ run.status.payloadSize.toNat ≤ maxSize) ∧
      (run.status.remote = true → run.regionSize = run.status.extent.toNat) ∧
      (run.status.remote = false → run.status.extent.toNat ≤ run.regionSize) := by
  obtain ⟨s₁, -, h⟩ := exists_of_bind_eq_ok h
  split at h
  case h_1 => cases h
  case h_2 p hread =>
    split_ifs at h
    obtain ⟨s₂, hnodes, h⟩ := exists_of_bind_eq_ok h
    obtain ⟨⟨s₃, size⟩, hregion, h⟩ := exists_of_bind_eq_ok h
    obtain ⟨uses, huses, h⟩ := exists_of_bind_eq_ok h
    cases h
    obtain ⟨hmode, hpsize⟩ := checkNodes_ok hnodes
    obtain ⟨hmode', hpsize', hremote, hlocal⟩ := setUp_ok hregion
    refine ⟨huses, fun hreads ↦ ?_, hremote, hlocal⟩
    dsimp only at hreads ⊢
    rw [hpsize', hpsize]
    rw [hmode', hmode] at hreads
    exact readPayload_ok hread hreads

/-! ## Where the uses lie -/

theorem toNat_max32 (a b : BitVec 32) : (max32 a b).toNat = max a.toNat b.toNat := by
  rw [max32]
  split_ifs with h
  · exact (max_eq_left (BitVec.lt_def.mp h).le).symm
  · exact (max_eq_right (Nat.le_of_not_lt h)).symm

theorem exact_iff :
    s.Exact ↔ s.payloadSize.toNat + (if s.remote then max s.masterOffset.toNat s.slaveOffset.toNat
      else s.masterOffset.toNat) < 2 ^ 32 := by
  have hsum : ∀ {a b : BitVec 32} {n : ℕ}, b.toNat = n →
      ((a + b).toNat = a.toNat + n ↔ a.toNat + n < 2 ^ 32) := by
    rintro a b n rfl
    rw [BitVec.toNat_add]
    omega
  refine hsum ?_
  split_ifs
  · exact toNat_max32 _ _
  · rfl

theorem localOffset_le_max : s.localOffset ≤ max s.masterOffset.toNat s.slaveOffset.toNat := by
  rw [Status.localOffset]
  split_ifs
  · exact le_max_left _ _
  · exact le_max_right _ _

theorem axrdmaDump_eq_some (h : s.payloadSize.toNat < 2 ^ 31) :
    ∃ used, axrdmaDump s = some used ∧
      IntLoop.Visited 1 (fun i ↦ (s.localOffset + i, 1)) s.payloadSize.toNat used := by
  have hstart := IntLoop.visited_zero 1 fun i ↦ (s.localOffset + i, 1)
  rw [axrdmaDump]
  split
  case isTrue hzero =>
    rw [hzero]
    exact ⟨[], rfl, hstart⟩
  case isFalse =>
    have hturn : ∀ i used, i < s.payloadSize.toNat → 1 ∣ i →
        IntLoop.Visited 1 (fun i ↦ (s.localOffset + i, 1)) i used → (dumpTurn s i used).1 = true ∧
          IntLoop.Visited 1 (fun i ↦ (s.localOffset + i, 1)) (i + 1) (dumpTurn s i used).2 :=
      fun _ _ _ hi hI ↦ ⟨rfl, hI.snoc Nat.one_pos hi⟩
    obtain ⟨used, i, hrun, hle, hlt, -, hused⟩ :=
      IntLoop.run_invariant Nat.one_pos h hstart hturn
    obtain rfl : i = s.payloadSize.toNat := Nat.le_antisymm (Nat.le_of_lt_succ hlt) hle
    exact ⟨used, hrun, hused⟩

theorem within_dump_iff :
    Within size (axrdmaDump s) ↔ s.payloadSize.toNat = 0 ∨
      (s.payloadSize.toNat < 2 ^ 31 ∧ s.localOffset + s.payloadSize.toNat ≤ size) := by
  by_cases hlt : s.payloadSize.toNat < 2 ^ 31
  · obtain ⟨used, hused, hmem⟩ := axrdmaDump_eq_some hlt
    rw [hused]
    constructor
    · rintro ⟨used', heq, hin⟩
      cases heq
      obtain hzero | hpos := Nat.eq_zero_or_pos s.payloadSize.toNat
      · exact .inl hzero
      · have hlast := hin _ ((hmem _).mpr ⟨s.payloadSize.toNat - 1, by omega, one_dvd _, rfl⟩)
        dsimp only at hlast
        exact .inr ⟨hlt, by omega⟩
    · intro h
      refine ⟨used, rfl, fun w hw ↦ ?_⟩
      obtain ⟨i, hi, -, rfl⟩ := (hmem w).mp hw
      dsimp only
      omega
  · have hnone : axrdmaDump s = none := by
      rw [axrdmaDump, if_neg]
      · exact IntLoop.run_eq_none (one_dvd _) (by omega) fun _ _ ↦ rfl
      · intro hzero
        simp [hzero] at hlt
    rw [hnone]
    constructor
    · rintro ⟨used, heq, -⟩
      cases heq
    · omega

theorem within_some_iff {used : List Use} :
    Within size (some used) ↔ ∀ w ∈ used, w.1 + w.2 ≤ size := by
  simp [Within]

theorem within_thenDump_iff {used : List Use} {wanted : Bool} :
    Within size (thenDump s used wanted) ↔
      (∀ w ∈ used, w.1 + w.2 ≤ size) ∧ (wanted = true → Within size (axrdmaDump s)) := by
  cases wanted with
  | false => simp [thenDump, within_some_iff]
  | true =>
      rw [thenDump, if_pos rfl]
      cases axrdmaDump s with
      | none => simp [Within]
      | some dumped =>
          rw [Option.map_some, within_some_iff, List.forall_mem_append]
          simp [within_some_iff]

theorem within_store_iff :
    (∀ w ∈ axrdmaStore s, w.1 + w.2 ≤ size) ↔ s.localOffset + s.payloadSize.toNat ≤ size := by
  simp [axrdmaStore]

theorem within_remoteCall (ok : Bool) (h : s.masterOffset.toNat + s.payloadSize.toNat ≤ size) :
    ∀ w ∈ (remoteCall maxSize s ok).2, w.1 + w.2 ≤ size := by
  rw [remoteCall]
  split_ifs <;> simp [h]

/-- Remote modes use nothing beyond the larger offset. -/
theorem within_of_remote (hremote : s.remote = true) {uses : Option (List Use)}
    (h : transfer c maxSize s = .ok uses) (hlt : s.payloadSize.toNat < 2 ^ 31)
    (hsize : s.payloadSize.toNat + max s.masterOffset.toNat s.slaveOffset.toNat ≤ size) :
    Within size uses := by
  have hoffset := localOffset_le_max (s := s)
  have hstore : ∀ w ∈ axrdmaStore s, w.1 + w.2 ≤ size := within_store_iff.mpr (by omega)
  have hcall : ∀ ok, ∀ w ∈ (remoteCall maxSize s ok).2, w.1 + w.2 ≤ size :=
    fun ok ↦ within_remoteCall ok (by omega)
  have hdump : Within size (axrdmaDump s) := within_dump_iff.mpr (.inr ⟨hlt, by omega⟩)
  rw [transfer] at h
  split at h
  case h_1 =>
    have hstored : ∀ w ∈ if s.localId = s.slaveId then axrdmaStore s else [], w.1 + w.2 ≤ size := by
      split_ifs
      · exact hstore
      · simp
    have hread : ∀ w ∈ (if s.localId = s.masterId then axrdmaRead c maxSize s else (true, [])).2,
        w.1 + w.2 ≤ size := by
      split_ifs
      · exact hcall _
      · simp
    by_cases hsync : c.dataSync < 0
    · rw [if_pos hsync] at h
      cases h
      exact within_some_iff.mpr hstored
    · rw [if_neg hsync] at h
      cases h
      exact within_thenDump_iff.mpr ⟨List.forall_mem_append.mpr ⟨hstored, hread⟩, fun _ ↦ hdump⟩
  case h_2 =>
    dsimp only at h
    cases h
    refine within_thenDump_iff.mpr ⟨?_, fun _ ↦ hdump⟩
    split_ifs
    · exact List.forall_mem_append.mpr ⟨hstore, hcall _⟩
    · simp
  all_goals simp_all [Status.remote]

/-- Local modes use the range from the offset of the node's role on. -/
theorem within_iff_of_local (hremote : s.remote = false) {uses : Option (List Use)}
    (h : transfer c maxSize s = .ok uses) (hmax : maxSize < 2 ^ 31)
    (hstore : readsPayload .rdma s.mode = true →
      s.payloadSize.toNat ≠ 0 ∧ s.payloadSize.toNat ≤ maxSize) :
    Within size uses ↔ s.payloadSize.toNat = 0 ∨
      (s.payloadSize.toNat < 2 ^ 31 ∧ s.localOffset + s.payloadSize.toNat ≤ size) := by
  rw [transfer] at h
  split at h
  case h_3 =>
    cases h
    exact within_dump_iff
  case h_4 hmode =>
    cases h
    rw [hmode] at hstore
    have hpayload := hstore rfl
    rw [within_thenDump_iff, within_store_iff, within_dump_iff]
    omega
  case h_5 => cases h
  all_goals simp_all [Status.remote]

/-- What keeps a run in its region: options that need no more than 32 bits, a sum that needs no
more, and in the local modes an index that does not overflow and room behind the slave's offset,
which `main` does not check. -/
def Covered (opts : List Opt) (run : Run) : Prop :=
  (∀ o ∈ opts, o.fits = true) ∧
    if run.status.remote then
      run.status.payloadSize.toNat +
        max run.status.masterOffset.toNat run.status.slaveOffset.toNat < 2 ^ 32
    else
      run.status.payloadSize.toNat + run.status.masterOffset.toNat < 2 ^ 32 ∧
        run.status.payloadSize.toNat < 2 ^ 31 ∧
        (run.status.localId ≠ run.status.masterId → run.status.payloadSize.toNat = 0 ∨
          run.status.slaveOffset.toNat + run.status.payloadSize.toNat ≤ run.regionSize)

theorem readsPayload_of_remote (hremote : s.remote = true) :
    readsPayload .rdma s.mode = true := by
  simp only [Status.remote, decide_eq_true_eq] at hremote
  obtain hmode | hmode := hremote <;> rw [hmode] <;> rfl

/-- With an allocated region the sum is all that has to be right. -/
theorem covered_iff_of_remote (hmax : maxSize < 2 ^ 31)
    (h : main u c scan maxSize opts args payload = .ok run) (hmode : run.status.remote = true) :
    (Within run.regionSize run.uses ∧ run.status.Exact ∧ ∀ o ∈ opts, o.fits = true) ↔
      Covered opts run := by
  obtain ⟨huses, hpayload, hremote, -⟩ := main_ok h
  have hsize := hpayload (readsPayload_of_remote hmode)
  rw [Covered, exact_iff, if_pos hmode, if_pos hmode]
  constructor
  · rintro ⟨-, hsum, hfits⟩
    exact ⟨hfits, hsum⟩
  · rintro ⟨hfits, hsum⟩
    refine ⟨within_of_remote hmode huses (by omega) ?_, hsum, hfits⟩
    have hexact : run.status.Exact := exact_iff.mpr (by rwa [if_pos hmode])
    rw [hremote hmode, hexact, if_pos hmode]

/-- In a mapped zone the master's range is checked; the slave's has to fit by itself. -/
theorem covered_iff_of_local (hmax : maxSize < 2 ^ 31)
    (h : main u c scan maxSize opts args payload = .ok run) (hmode : ¬ run.status.remote = true) :
    (Within run.regionSize run.uses ∧ run.status.Exact ∧ ∀ o ∈ opts, o.fits = true) ↔
      Covered opts run := by
  obtain ⟨huses, hpayload, -, hlocal⟩ := main_ok h
  have hfalse : run.status.remote = false := Bool.eq_false_iff.mpr hmode
  rw [Covered, exact_iff, if_neg hmode, if_neg hmode,
    within_iff_of_local hfalse huses hmax hpayload]
  constructor
  · rintro ⟨hin, hsum, hfits⟩
    refine ⟨hfits, hsum, by omega, fun hslave ↦ ?_⟩
    rw [Status.localOffset, if_neg hslave] at hin
    omega
  · rintro ⟨hfits, hsum, hlt, hslave⟩
    refine ⟨?_, hsum, hfits⟩
    have hexact : run.status.Exact := exact_iff.mpr (by rwa [if_neg hmode])
    have hle := hlocal hfalse
    rw [hexact, if_neg hmode] at hle
    rw [Status.localOffset]
    split_ifs with hid
    · omega
    · have hroom := hslave hid
      omega

/-- The uses of a run stay in its region, with the sizes and offsets asked for and without a sum
that is cut to 32 bits, exactly when the run is covered. -/
theorem accesses_inside_iff (u : Unspecified) (c : Calls) (scan : α → Option UInt8) (maxSize : ℕ)
    (opts : List Opt) (args : List α) (payload : ℕ → UInt8) (run : Run) (hmax : maxSize < 2 ^ 31)
    (h : main u c scan maxSize opts args payload = .ok run) :
    (Within run.regionSize run.uses ∧ run.status.Exact ∧ ∀ o ∈ opts, o.Exact) ↔
      Covered opts run := by
  simp only [Opt.exact_iff]
  by_cases hmode : run.status.remote = true
  · exact covered_iff_of_remote hmax h hmode
  · exact covered_iff_of_local hmax h hmode

/-- Calls on node `id` of the nodes 1 and 2, with a zone of 4096 bytes. -/
def callsOn (id : BitVec 8) : Calls where
  axiomOpen := true
  getNodeId := id
  getNumNodes := 2
  getNodes := 6
  allocatorInit := 0
  privateMalloc := true
  allocSync := 0
  rdmaMmap := some 4096
  dataSync := 0
  rdmaReadSync := true
  rdmaWriteSync := true

/-- Two bytes are stored, at 1K by the master and at 1M by the slave. -/
def storeOpts : List Opt :=
  [.mode (some .localStore), .size (.value 2 none), .moff (.value 1 (some 'K')),
    .soff (.value 1 (some 'M'))]

/-- What `main` makes of the options on node `id`. -/
def storeRun (id : BitVec 8) (offset : ℕ) : Run where
  status :=
    { mode := .localStore, localId := id, masterId := 1, slaveId := -1, payloadSize := 2,
      masterOffset := 1024, slaveOffset := 1048576 }
  regionSize := 4096
  uses := some [(offset, 2)]

def zeros : Unspecified := ⟨64, 64, fun _ ↦ 0⟩

theorem accesses_inside_master :
    main zeros (callsOn 1) some 8 storeOpts [7] (fun _ ↦ 0) = .ok (storeRun 1 1024) ∧
      Within 4096 (some [(1024, 2)]) := by
  have hrun : main zeros (callsOn 1) some 8 storeOpts [7] (fun _ ↦ 0) = .ok (storeRun 1 1024) := by
    decide +kernel
  have hcovered : Covered storeOpts (storeRun 1 1024) := ⟨by decide, by decide⟩
  exact ⟨hrun, ((accesses_inside_iff zeros (callsOn 1) some 8 storeOpts [7] (fun _ ↦ 0)
    (storeRun 1 1024) (by decide) hrun).mpr hcovered).1⟩

/-- The slave's offset is not checked. -/
theorem slave_stores_outside :
    main zeros (callsOn 2) some 8 storeOpts [7] (fun _ ↦ 0) = .ok (storeRun 2 1048576) ∧
      ¬ Within 4096 (some [(1048576, 2)]) := by
  refine ⟨by decide +kernel, fun h ↦ ?_⟩
  have hw := within_some_iff.mp h (1048576, 2) (List.mem_singleton_self _)
  exact absurd hw (by decide)

end AxiomApps.Rdma
