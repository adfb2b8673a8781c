import AxiomApps.Lib.Threads
import AxiomApps.Lib.Tiling

/-!
# The client of axiom-netperf

The client's threads share one record of the transfer, protected by a mutex. A thread
claims the next piece of the stream in a critical section and transfers it outside. An RDMA
write goes to the offset that was claimed; raw and long messages carry no offset, and theirs
only says which part of the stream a message stands for.

The actions are the critical sections and the calls of the NIC library between them. A local
`payload_size` shrinks at the end of the stream and stays so.
-/

namespace AxiomApps.Netperf

open EventSystem Tiling

inductive NpType
  | raw
  | long
  | rdma
  deriving DecidableEq, Repr

/-- `AXN_STATE_NULL` and so on. -/
inductive ClientState
  | null
  | init
  | start
  | ended
  | stop
  | error
  deriving DecidableEq, Repr

/-- The limits and defaults of the payload size, which the NIC headers give. -/
structure PayloadLimits where
  rawMax : ℕ
  longMax : ℕ
  rdmaMax : ℕ
  defRaw : ℕ
  defLong : ℕ
  defRdma : ℕ

structure Config where
  npType : NpType
  rdmaSync : Bool
  totalBytes : ℕ
  payloadSize : ℕ
  totalBytes_lt : totalBytes < 2 ^ 64

/-- What the threads share. `locked` holds while a thread calls the NIC library under the
mutex. -/
structure Client where
  state : ClientState
  payloadSize : ℕ
  totalPackets : ℕ
  sentBytes : ℕ
  locked : Bool
  deriving DecidableEq, Repr

/-- Where a thread is, with its `payload_size` and the pieces whose asynchronous writes it
has not waited for. -/
inductive Pc
  | entry
  | run
  | loop (payloadSize : ℕ) (tokens : List (ℕ × ℕ))
  | transfer (addr payloadSize : ℕ) (tokens : List (ℕ × ℕ))
  | rollback (payloadSize : ℕ)
  | full (payloadSize : ℕ) (tokens : List (ℕ × ℕ))
  | tail (addr payloadSize : ℕ) (tokens : List (ℕ × ℕ))
  | wait (tokens : List (ℕ × ℕ))
  | ending
  | stopping
  | returned (ok : Bool)
  deriving DecidableEq, Repr

/-- The Booleans say whether the call of the NIC library succeeds. -/
inductive Act
  | enter (rdmaSize : Option ℕ) (ok : Bool)
  | begin
  | turn
  | transfer (ok : Bool)
  | rollback
  | tail (ok : Bool)
  | wait (ok : Bool)
  | finish
  | stop (ok : Bool)
  deriving DecidableEq, Repr

def tokenLen : ℕ := 2048

/-! Unsigned 64-bit arithmetic. -/

def add64 (a b : ℕ) : ℕ := (a + b) % 2 ^ 64

def sub64 (a b : ℕ) : ℕ := (a + (2 ^ 64 - b)) % 2 ^ 64

theorem add64_of_lt {a b : ℕ} (h : a + b < 2 ^ 64) : add64 a b = a + b := Nat.mod_eq_of_lt h

theorem sub64_self {a : ℕ} (h : a < 2 ^ 64) : sub64 a a = 0 := by
  simp only [sub64]
  omega

/-! ## Set-up -/

/-- The default of a type of transfer and the most it allows. -/
def PayloadLimits.ofType (lim : PayloadLimits) : NpType → ℕ × ℕ
  | .raw => (lim.defRaw, lim.rawMax)
  | .long => (lim.defLong, lim.longMax)
  | .rdma => (lim.defRdma, lim.rdmaMax)

/-- The payload size of a run: 0 on the command line stands for the default. -/
def configured (lim : PayloadLimits) (cfg : Config) : ℕ :=
  if cfg.payloadSize = 0 then (lim.ofType cfg.npType).1 else cfg.payloadSize

/-- The payload size to use, unless it is out of range. -/
def checkPayload (limits : ℕ × ℕ) (payloadSize : ℕ) : Option ℕ :=
  let payloadSize := if payloadSize = 0 then limits.1 else payloadSize
  if payloadSize < 1 ∨ limits.2 < payloadSize then none else some payloadSize

/-- `axnetperf_raw_init` -/
def rawInit (lim : PayloadLimits) (payloadSize : ℕ) : Option ℕ :=
  checkPayload (lim.ofType .raw) payloadSize

/-- `axnetperf_long_init` -/
def longInit (lim : PayloadLimits) (payloadSize : ℕ) : Option ℕ :=
  checkPayload (lim.ofType .long) payloadSize

/-- `axnetperf_rdma_init`. The zone may fail to be mapped, and it must hold the stream. -/
def rdmaInit (lim : PayloadLimits) (payloadSize totalBytes : ℕ) (rdmaSize : Option ℕ) :
    Option ℕ :=
  (checkPayload (lim.ofType .rdma) payloadSize).bind fun payloadSize ↦
    rdmaSize.bind fun rdmaSize ↦
      if rdmaSize < totalBytes then none else some payloadSize

def initType (lim : PayloadLimits) (cfg : Config) (payloadSize : ℕ) (rdmaSize : Option ℕ) :
    Option ℕ :=
  match cfg.npType with
  | .rdma => rdmaInit lim payloadSize cfg.totalBytes rdmaSize
  | .raw => rawInit lim payloadSize
  | .long => longInit lim payloadSize

/-- The first critical section of `axnetperf_client`; `ok` is whether the start message could
be sent. -/
def enter (lim : PayloadLimits) (cfg : Config) (c : Client) (rdmaSize : Option ℕ) (ok : Bool) :
    Client × Pc :=
  if c.state = .null then
    match initType lim cfg c.payloadSize rdmaSize with
    | none => ({ c with state := .error }, .returned false)
    | some payloadSize =>
        if ok then ({ c with payloadSize := payloadSize, state := .init }, .run)
        else ({ c with payloadSize := payloadSize, state := .error }, .returned false)
  else if c.state = .error then (c, .returned false)
  else (c, .run)

/-! ## The transfer -/

/-- The first thread in state `x` takes the transfer to state `y`. -/
def advance (x y : ClientState) (c : Client) : Client :=
  if c.state = x then { c with state := y } else c

/-- Where the RDMA functions go after the last write. -/
def afterWrites (cfg : Config) (tokens : List (ℕ × ℕ)) : Pc :=
  if cfg.rdmaSync then .ending else .wait tokens

/-- The end of the loop, still in the critical section. The RDMA functions write what is
missing, if the unsigned difference is not 0. -/
def leave (cfg : Config) (c : Client) (tokens : List (ℕ × ℕ)) : Client × Pc :=
  if cfg.npType = .rdma then
    let payloadSize := sub64 cfg.totalBytes c.sentBytes
    if 0 < payloadSize then ({ c with locked := true }, .tail c.sentBytes payloadSize tokens)
    else (c, afterWrites cfg tokens)
  else (advance .start .ended c, .stopping)

/-- One turn of the loop, which the three functions share: claim the next piece or leave. -/
def turn (cfg : Config) (c : Client) (payloadSize : ℕ) (tokens : List (ℕ × ℕ)) : Client × Pc :=
  if c.sentBytes < cfg.totalBytes then
    let payloadSize :=
      if cfg.totalBytes - c.sentBytes < payloadSize then cfg.totalBytes - c.sentBytes
      else payloadSize
    ({ c with totalPackets := add64 c.totalPackets 1, sentBytes := add64 c.sentBytes payloadSize },
      .transfer c.sentBytes payloadSize tokens)
  else leave cfg c tokens

/-- `axnetperf_rdma` leaves the critical section before its loop, `axnetperf_raw_long` does
not. -/
def begin (cfg : Config) (c : Client) : Client × Pc :=
  let c := if c.state = .init then { c with state := .start, sentBytes := 0 } else c
  if cfg.npType = .rdma then (c, .loop c.payloadSize []) else turn cfg c c.payloadSize []

/-- After a transfer: `axnetperf_rdma_async` waits when its tokens are used up. -/
def transferred (cfg : Config) (addr payloadSize : ℕ) (tokens : List (ℕ × ℕ)) : Pc :=
  if cfg.npType = .rdma ∧ !cfg.rdmaSync then
    let tokens := tokens ++ [(addr, payloadSize)]
    if tokens.length = tokenLen then .full payloadSize tokens else .loop payloadSize tokens
  else .loop payloadSize tokens

/-- After a transfer that failed: the RDMA functions take the piece back,
`axnetperf_raw_long` counts it again. -/
def rollback (cfg : Config) (c : Client) (payloadSize : ℕ) : Client :=
  let op := if cfg.npType = .rdma then sub64 else add64
  { c with totalPackets := op c.totalPackets 1, sentBytes := op c.sentBytes payloadSize }

/-- The write after the loop, made under the mutex. When it fails `axnetperf_rdma_async`
returns without unlocking. -/
def tail (cfg : Config) (c : Client) (ok : Bool) (addr payloadSize : ℕ)
    (tokens : List (ℕ × ℕ)) : Client × Pc :=
  if ok then
    ({ c with totalPackets := add64 c.totalPackets 1, sentBytes := add64 c.sentBytes payloadSize
              locked := false },
      afterWrites cfg (if cfg.rdmaSync then tokens else tokens ++ [(addr, payloadSize)]))
  else ({ c with locked := !cfg.rdmaSync }, .stopping)

/-- The last critical section of `axnetperf_client`; `ok` is whether the server's results
came. The result of the transfer itself is not looked at. -/
def stop (c : Client) (ok : Bool) : Client × Pc :=
  (advance .ended .stop c, .returned (ok || c.state != .ended))

/-- A critical section waits for the mutex. -/
def critical (c : Client) (r : Client × Pc) : Option (Client × Pc) :=
  if c.locked then none else some r

def step (lim : PayloadLimits) (cfg : Config) : Act → Client → Pc → Option (Client × Pc)
  | .enter rdmaSize ok, c, .entry => critical c (enter lim cfg c rdmaSize ok)
  | .begin, c, .run => critical c (begin cfg c)
  | .turn, c, .loop payloadSize tokens => critical c (turn cfg c payloadSize tokens)
  | .transfer ok, c, .transfer addr payloadSize tokens =>
      some (c, if ok then transferred cfg addr payloadSize tokens else .rollback payloadSize)
  | .rollback, c, .rollback payloadSize => critical c (rollback cfg c payloadSize, .stopping)
  | .tail ok, c, .tail addr payloadSize tokens => some (tail cfg c ok addr payloadSize tokens)
  -- in the loop the result of the wait is not looked at
  | .wait _, c, .full payloadSize _ => some (c, .loop payloadSize [])
  | .wait ok, c, .wait _ => some (c, if ok then .ending else .stopping)
  -- whether the end message can be sent makes no difference to the client
  | .finish, c, .ending => critical c (advance .start .ended c, .stopping)
  | .stop ok, c, .stopping => critical c (stop c ok)
  | _, _, _ => none

section System

variable (T : Type*) [DecidableEq T] (lim : PayloadLimits) (cfg : Config)

/-- The threads at their start; `main` sets the client to zero but for the options. -/
def start : Threads.State T Client Pc where
  shared := ⟨.null, cfg.payloadSize, 0, 0, false⟩
  loc := fun _ ↦ .entry

variable {T}

def next (s : Threads.State T Client Pc) (e : T × Act) : Option (Threads.State T Client Pc) :=
  Threads.next (step lim cfg) s e

end System

/-! ## What a thread can do -/

/-- The actions of a thread, each at its place in the program; the critical sections need the
mutex. -/
inductive Moves (lim : PayloadLimits) (cfg : Config) (c : Client) : Act → Pc → Client × Pc → Prop
  | enter (hfree : c.locked = false) (rdmaSize : Option ℕ) (ok : Bool) :
      Moves lim cfg c (.enter rdmaSize ok) .entry (enter lim cfg c rdmaSize ok)
  | begin (hfree : c.locked = false) : Moves lim cfg c .begin .run (begin cfg c)
  | turn (hfree : c.locked = false) (n : ℕ) (tokens : List (ℕ × ℕ)) :
      Moves lim cfg c .turn (.loop n tokens) (turn cfg c n tokens)
  | transfer (ok : Bool) (addr n : ℕ) (tokens : List (ℕ × ℕ)) :
      Moves lim cfg c (.transfer ok) (.transfer addr n tokens)
        (c, if ok then transferred cfg addr n tokens else .rollback n)
  | rollback (hfree : c.locked = false) (n : ℕ) :
      Moves lim cfg c .rollback (.rollback n) (rollback cfg c n, .stopping)
  | tail (ok : Bool) (addr n : ℕ) (tokens : List (ℕ × ℕ)) :
      Moves lim cfg c (.tail ok) (.tail addr n tokens) (tail cfg c ok addr n tokens)
  | full (ok : Bool) (n : ℕ) (tokens : List (ℕ × ℕ)) :
      Moves lim cfg c (.wait ok) (.full n tokens) (c, .loop n [])
  | wait (ok : Bool) (tokens : List (ℕ × ℕ)) :
      Moves lim cfg c (.wait ok) (.wait tokens) (c, if ok then .ending else .stopping)
  | finish (hfree : c.locked = false) :
      Moves lim cfg c .finish .ending (advance .start .ended c, .stopping)
  | stop (hfree : c.locked = false) (ok : Bool) :
      Moves lim cfg c (.stop ok) .stopping (stop c ok)

variable {lim : PayloadLimits} {cfg : Config} {a : Act} {c c' : Client} {l l' : Pc}
  {r : Client × Pc}

theorem critical_eq_some {r' : Client × Pc} (h : critical c r = some r') :
    c.locked = false ∧ r = r' := by
  rw [critical] at h
  split_ifs at h with hlocked
  exact ⟨Bool.eq_false_iff.mpr hlocked, Option.some.inj h⟩

theorem moves_of_step (h : step lim cfg a c l = some r) : Moves lim cfg c a l r := by
  rw [step.eq_def] at h
  split at h
  · obtain ⟨hfree, rfl⟩ := critical_eq_some h
    exact .enter hfree _ _
  · obtain ⟨hfree, rfl⟩ := critical_eq_some h
    exact .begin hfree
  · obtain ⟨hfree, rfl⟩ := critical_eq_some h
    exact .turn hfree _ _
  · cases h
    exact .transfer ..
  · obtain ⟨hfree, rfl⟩ := critical_eq_some h
    exact .rollback hfree _
  · cases h
    exact .tail ..
  · cases h
    exact .full ..
  · cases h
    exact .wait ..
  · obtain ⟨hfree, rfl⟩ := critical_eq_some h
    exact .finish hfree
  · obtain ⟨hfree, rfl⟩ := critical_eq_some h
    exact .stop hfree _
  · cases h

/-! ## Claims and transfers -/

/-- The piece a thread has claimed and not transferred. -/
def pending : Pc → List (ℕ × ℕ)
  | .transfer addr payloadSize _ => [(addr, payloadSize)]
  | .tail addr payloadSize _ => [(addr, payloadSize)]
  | _ => []

/-- The offset and the length an action passes to the NIC library. -/
def passed : Act → Client → Pc → List (ℕ × ℕ)
  | .transfer _, _, .transfer addr payloadSize _ => [(addr, payloadSize)]
  | .tail _, _, .tail addr payloadSize _ => [(addr, payloadSize)]
  | _, _, _ => []

def claimed (lim : PayloadLimits) (cfg : Config) (a : Act) (c : Client) (l : Pc) :
    List (ℕ × ℕ) :=
  ((step lim cfg a c l).map fun r ↦ pending r.2).getD []

theorem claimed_eq_pending (h : step lim cfg a c l = some (c', l')) :
    claimed lim cfg a c l = pending l' := by
  simp [claimed, h]

/-- A thread transfers what it has claimed, before it does anything else. -/
theorem passed_eq_pending (h : step lim cfg a c l = some r) : passed a c l = pending l := by
  cases moves_of_step h <;> rfl

theorem balance (a : Act) (c : Client) (l : Pc) (c' : Client) (l' : Pc)
    (h : step lim cfg a c l = some (c', l')) :
    pending l ++ claimed lim cfg a c l = passed a c l ++ pending l' := by
  rw [claimed_eq_pending h, passed_eq_pending h]

/-! ## What holds when no transfer fails -/

/-- No transfer fails; the other calls may. -/
def Act.TransferOk (a : Act) : Prop := a ≠ .transfer false ∧ a ≠ .tail false

/-- Some thread has set the transfer up. -/
def Client.SetUp (c : Client) : Prop := c.state ≠ .null ∧ c.state ≠ .error

def Client.Started (c : Client) : Prop := c.SetUp ∧ c.state ≠ .init

instance : Decidable a.TransferOk := inferInstanceAs (Decidable (_ ∧ _))

instance : Decidable c.SetUp := inferInstanceAs (Decidable (_ ∧ _))

/-- The shared record, given the pieces claimed so far. -/
structure Shared (lim : PayloadLimits) (cfg : Config) (claims : List (ℕ × ℕ)) (c : Client) :
    Prop where
  unlocked : c.locked = false
  tiles : Tiles 0 claims c.sentBytes
  le : c.sentBytes ≤ cfg.totalBytes
  packets : c.totalPackets = claims.length
  lengths : ∀ d ∈ claims, 0 < d.2 ∧ d.2 ≤ configured lim cfg
  fresh : ¬ c.Started → claims = []
  given : c.state = .null → c.payloadSize = cfg.payloadSize
  payload : c.SetUp → c.payloadSize = configured lim cfg ∧ 0 < c.payloadSize

def Local (lim : PayloadLimits) (cfg : Config) (c : Client) : Pc → Prop
  | .entry => True
  | .run => c.SetUp
  | .loop payloadSize _ | .transfer _ payloadSize _ | .full payloadSize _ =>
      c.Started ∧ 0 < payloadSize ∧ payloadSize ≤ configured lim cfg
  | .rollback _ | .tail .. => False
  | .wait _ | .ending | .stopping => c.Started ∧ c.sentBytes = cfg.totalBytes
  | .returned _ => c.state = .error ∨ c.Started ∧ c.sentBytes = cfg.totalBytes

/-- What a thread may rely on the others to keep. -/
structure Later (cfg : Config) (c c' : Client) : Prop where
  setUp : c.SetUp → c'.SetUp
  started : c.Started → c'.Started
  error : c.state = .error → c'.state = .error
  done : c.Started ∧ c.sentBytes = cfg.totalBytes → c'.sentBytes = cfg.totalBytes

theorem Later.refl (c : Client) : Later cfg c c :=
  ⟨id, id, id, And.right⟩

theorem Local.mono (h : Local lim cfg c l) (hlater : Later cfg c c') : Local lim cfg c' l := by
  have hdone : c.Started ∧ c.sentBytes = cfg.totalBytes →
      c'.Started ∧ c'.sentBytes = cfg.totalBytes :=
    fun hd ↦ ⟨hlater.started hd.1, hlater.done hd⟩
  cases l with
  | entry => trivial
  | run => exact hlater.setUp h
  | loop | transfer | full => exact ⟨hlater.started h.1, h.2⟩
  | rollback | tail => exact h
  | wait | ending | stopping => exact hdone h
  | returned => exact h.imp hlater.error hdone

/-- What one action of a thread has to show. -/
structure Keeps (lim : PayloadLimits) (cfg : Config) (claims : List (ℕ × ℕ)) (c : Client)
    (r : Client × Pc) : Prop where
  shared : Shared lim cfg (claims ++ pending r.2) r.1
  loc : Local lim cfg r.1 r.2
  later : Later cfg c r.1

variable {claims : List (ℕ × ℕ)}

theorem Shared.keeps_self (h : Shared lim cfg claims c) (hp : pending l = [])
    (hl : Local lim cfg c l) : Keeps lim cfg claims c (c, l) :=
  ⟨by simpa [hp] using h, hl, .refl c⟩

/-! ### Set-up -/

theorem checkPayload_eq_some {limits : ℕ × ℕ} {n m : ℕ} (h : checkPayload limits n = some m) :
    m = (if n = 0 then limits.1 else n) ∧ 0 < m := by
  simp only [checkPayload, Option.ite_none_left_eq_some, not_or, not_lt] at h
  obtain ⟨⟨hpos, -⟩, hm⟩ := h
  have hm := Option.some.inj hm
  exact ⟨hm.symm, hm ▸ hpos⟩

theorem initType_eq_some {n : ℕ} {rdmaSize : Option ℕ}
    (h : initType lim cfg cfg.payloadSize rdmaSize = some n) :
    n = configured lim cfg ∧ 0 < n := by
  have hcheck : checkPayload (lim.ofType cfg.npType) cfg.payloadSize = some n := by
    cases htype : cfg.npType with
    | raw => simpa only [initType, htype, rawInit] using h
    | long => simpa only [initType, htype, longInit] using h
    | rdma =>
        simp only [initType, htype, rdmaInit, Option.bind_eq_some_iff,
          Option.ite_none_left_eq_some] at h
        obtain ⟨m, hm, zone, -, -, hzone⟩ := h
        exact hm.trans hzone
  exact checkPayload_eq_some hcheck

/-- The thread that finds nothing set up either sets the transfer up or leaves an error. -/
theorem Shared.keeps_of_null (h : Shared lim cfg claims c) (hnull : c.state = .null) {n : ℕ}
    {st : ClientState} {l : Pc} (hp : pending l = [])
    (hst : (st = .error ∧ ∃ ok, l = .returned ok) ∨
      (st = .init ∧ l = .run ∧ n = configured lim cfg ∧ 0 < n)) :
    Keeps lim cfg claims c ({ c with payloadSize := n, state := st }, l) := by
  have hclaims := h.fresh fun hs ↦ hs.1.1 hnull
  refine ⟨?_, ?_, fun hs ↦ absurd hnull hs.1, fun hs ↦ absurd hnull hs.1.1, ?_,
    fun hs ↦ absurd hnull hs.1.1.1⟩
  · rw [hp, List.append_nil]
    refine ⟨h.unlocked, h.tiles, h.le, h.packets, h.lengths, fun _ ↦ hclaims, ?_, ?_⟩
    · rcases hst with ⟨rfl, -⟩ | ⟨rfl, -⟩ <;> exact nofun
    · rcases hst with ⟨rfl, -⟩ | ⟨rfl, -, hn⟩
      · exact fun hs ↦ absurd rfl hs.2
      · exact fun _ ↦ hn
  · rcases hst with ⟨rfl, ok, rfl⟩ | ⟨rfl, rfl, -⟩
    · exact .inl rfl
    · exact ⟨nofun, nofun⟩
  · rw [hnull]
    exact nofun

theorem Shared.enter (h : Shared lim cfg claims c) (rdmaSize : Option ℕ) (ok : Bool) :
    Keeps lim cfg claims c (enter lim cfg c rdmaSize ok) := by
  rw [Netperf.enter]
  by_cases hnull : c.state = .null
  · rw [if_pos hnull, h.given hnull]
    split
    · exact h.keeps_of_null hnull rfl (.inl ⟨rfl, _, rfl⟩)
    · next n hinit =>
        cases ok with
        | true => exact h.keeps_of_null hnull rfl (.inr ⟨rfl, rfl, initType_eq_some hinit⟩)
        | false => exact h.keeps_of_null hnull rfl (.inl ⟨rfl, _, rfl⟩)
  · rw [if_neg hnull]
    split_ifs with herr
    · exact h.keeps_self (l := .returned false) rfl (.inl herr)
    · exact h.keeps_self (l := .run) rfl ⟨hnull, herr⟩

/-! ### The critical sections of the transfer -/

theorem Shared.keeps_advance (h : Shared lim cfg claims c) (hs : c.Started)
    (hdone : c.sentBytes = cfg.totalBytes) (x : ClientState) {y : ClientState}
    (hy : y = .ended ∨ y = .stop) {l : Pc} (hp : pending l = [])
    (hl : ∀ d : Client, d.Started ∧ d.sentBytes = cfg.totalBytes → Local lim cfg d l) :
    Keeps lim cfg claims c (advance x y c, l) := by
  rw [advance]
  split_ifs with hx
  · have hst : Client.Started { c with state := y } := by
      rcases hy with rfl | rfl <;> exact ⟨⟨nofun, nofun⟩, nofun⟩
    refine ⟨?_, hl _ ⟨hst, hdone⟩, fun _ ↦ hst.1, fun _ ↦ hst, fun he ↦ absurd he hs.1.2,
      And.right⟩
    rw [hp, List.append_nil]
    exact ⟨h.unlocked, h.tiles, h.le, h.packets, h.lengths, fun hn ↦ absurd hst hn,
      fun he ↦ absurd he hst.1.1, fun _ ↦ h.payload hs.1⟩
  · exact h.keeps_self hp (hl c ⟨hs, hdone⟩)

theorem Shared.leave (h : Shared lim cfg claims c) (hs : c.Started)
    (hdone : c.sentBytes = cfg.totalBytes) (tokens : List (ℕ × ℕ)) :
    Keeps lim cfg claims c (leave cfg c tokens) := by
  simp only [Netperf.leave, hdone, sub64_self cfg.totalBytes_lt, lt_self_iff_false, if_false]
  split_ifs
  · rw [afterWrites]
    split_ifs
    · exact h.keeps_self (l := .ending) rfl ⟨hs, hdone⟩
    · exact h.keeps_self (l := .wait tokens) rfl ⟨hs, hdone⟩
  · exact h.keeps_advance hs hdone .start (.inl rfl) rfl fun _ hd ↦ hd

/-- A claim extends the tiling, and the counters do not wrap around. -/
theorem Shared.claim (h : Shared lim cfg claims c) (hs : c.Started) {n : ℕ} (hpos : 0 < n)
    (hn : n ≤ configured lim cfg) (hle : c.sentBytes + n ≤ cfg.totalBytes)
    (tokens : List (ℕ × ℕ)) :
    Keeps lim cfg claims c ({ c with totalPackets := add64 c.totalPackets 1
                                     sentBytes := add64 c.sentBytes n },
      .transfer c.sentBytes n tokens) := by
  have htotal := cfg.totalBytes_lt
  have hlength := h.tiles.length_le fun d hd ↦ (h.lengths d hd).1
  have hsent : add64 c.sentBytes n = c.sentBytes + n := add64_of_lt (by omega)
  have hpackets : add64 c.totalPackets 1 = claims.length + 1 := by
    rw [h.packets]
    exact add64_of_lt (by omega)
  rw [hsent, hpackets]
  refine ⟨⟨h.unlocked, h.tiles.snoc n, hle, ?_, ?_, fun hn ↦ absurd hs hn,
    fun he ↦ absurd he hs.1.1, h.payload⟩, ⟨hs, hpos, hn⟩, id, id, id, fun hd ↦ ?_⟩
  · simp [pending]
  · intro d hd
    rcases List.mem_append.mp hd with hd | hd
    · exact h.lengths d hd
    · obtain rfl := List.mem_singleton.mp hd
      exact ⟨hpos, hn⟩
  · have := hd.2
    omega

theorem Shared.turn (h : Shared lim cfg claims c) (hs : c.Started) {n : ℕ} (hpos : 0 < n)
    (hn : n ≤ configured lim cfg) (tokens : List (ℕ × ℕ)) :
    Keeps lim cfg claims c (turn cfg c n tokens) := by
  rw [Netperf.turn]
  by_cases hlt : c.sentBytes < cfg.totalBytes
  · rw [if_pos hlt]
    refine h.claim hs ?_ ?_ ?_ tokens <;> split_ifs <;> omega
  · rw [if_neg hlt]
    exact h.leave hs (le_antisymm h.le (not_lt.mp hlt)) tokens

theorem Later.trans {c₁ c₂ : Client} (h : Later cfg c c₁) (h' : Later cfg c₁ c₂) :
    Later cfg c c₂ :=
  ⟨h'.setUp ∘ h.setUp, h'.started ∘ h.started, h'.error ∘ h.error,
    fun hd ↦ h'.done ⟨h.started hd.1, h.done hd⟩⟩

theorem Shared.begin (h : Shared lim cfg claims c) (hup : c.SetUp) :
    Keeps lim cfg claims c (begin cfg c) := by
  obtain ⟨d, hd, hshared, hs, hlater⟩ : ∃ d : Client,
      d = (if c.state = .init then { c with state := .start, sentBytes := 0 } else c) ∧
      Shared lim cfg claims d ∧ d.Started ∧ Later cfg c d := by
    refine ⟨_, rfl, ?_⟩
    split_ifs with hinit
    · -- nothing was claimed before, so the cursor was at 0
      obtain rfl := h.fresh fun hs ↦ hs.2 hinit
      have hs : Client.Started { c with state := .start, sentBytes := 0 } :=
        ⟨⟨nofun, nofun⟩, nofun⟩
      exact ⟨⟨h.unlocked, rfl, Nat.zero_le _, h.packets, h.lengths, fun _ ↦ rfl, nofun,
        fun _ ↦ h.payload hup⟩, hs, fun _ ↦ hs.1, fun _ ↦ hs, fun he ↦ absurd he hup.2,
        fun hd ↦ absurd hinit hd.1.2⟩
    · exact ⟨h, ⟨hup, hinit⟩, .refl c⟩
  obtain ⟨hpayload, hpos⟩ := hshared.payload hs.1
  have hkeeps : Keeps lim cfg claims d (if cfg.npType = .rdma then (d, .loop d.payloadSize [])
      else Netperf.turn cfg d d.payloadSize []) := by
    split_ifs
    · exact hshared.keeps_self (l := .loop ..) rfl ⟨hs, hpos, hpayload.le⟩
    · exact hshared.turn hs hpos hpayload.le []
  rw [Netperf.begin, ← hd]
  exact ⟨hkeeps.shared, hkeeps.loc, hlater.trans hkeeps.later⟩

/-! ### Steps and runs -/

theorem Shared.step (h : Shared lim cfg claims c) (hl : Local lim cfg c l) (ha : a.TransferOk)
    (hstep : step lim cfg a c l = some r) : Keeps lim cfg claims c r := by
  cases moves_of_step hstep with
  | enter _ rdmaSize ok => exact h.enter rdmaSize ok
  | begin => exact h.begin hl
  | turn _ n tokens => exact h.turn hl.1 hl.2.1 hl.2.2 tokens
  | transfer ok addr n tokens =>
      cases ok with
      | false => exact absurd rfl ha.1
      | true =>
          simp only [transferred, if_true]
          split_ifs
          · exact h.keeps_self (l := .full ..) rfl hl
          · exact h.keeps_self (l := .loop ..) rfl hl
          · exact h.keeps_self (l := .loop ..) rfl hl
  | rollback | tail => exact hl.elim
  | full ok n tokens => exact h.keeps_self (l := .loop ..) rfl hl
  | wait ok tokens =>
      split_ifs
      · exact h.keeps_self (l := .ending) rfl hl
      · exact h.keeps_self (l := .stopping) rfl hl
  | finish => exact h.keeps_advance hl.1 hl.2 .start (.inl rfl) rfl fun _ hd ↦ hd
  | stop => exact h.keeps_advance hl.1 hl.2 .ended (.inr rfl) rfl fun _ hd ↦ .inr hd

section Runs

variable {T : Type*} [DecidableEq T] {tr : List (Threads.State T Client Pc × (T × Act))}
  {s : Threads.State T Client Pc}

/-- What the runs pass to the NIC library, in the order of the calls. -/
def transfers (tr : List (Threads.State T Client Pc × (T × Act))) : List (ℕ × ℕ) :=
  (Threads.log passed tr).map Prod.snd

def claimsOf (lim : PayloadLimits) (cfg : Config)
    (tr : List (Threads.State T Client Pc × (T × Act))) : List (ℕ × ℕ) :=
  (Threads.log (claimed lim cfg) tr).map Prod.snd

theorem shared_of_exec (hexec : Exec (next lim cfg) (start T cfg) tr s)
    (hok : Meets (fun _ e ↦ e.2.TransferOk) tr) :
    Shared lim cfg (claimsOf lim cfg tr) s.shared ∧ ∀ t, Local lim cfg s.shared (s.loc t) := by
  refine Threads.invariant (f := claimed lim cfg)
    (S := fun bs c ↦ Shared lim cfg (bs.map Prod.snd) c) (L := Local lim cfg) ?_ ?_ ?_ hexec hok
  · exact ⟨rfl, rfl, Nat.zero_le _, rfl, by simp, fun _ ↦ rfl, fun _ ↦ rfl,
      fun hup ↦ absurd rfl hup.1⟩
  · exact fun _ ↦ trivial
  · intro bs c t l a c' l' ha hshared hl hstep
    have hkeeps := hshared.step hl ha hstep
    refine ⟨?_, hkeeps.loc, fun m hm ↦ hm.mono hkeeps.later⟩
    simpa [claimed_eq_pending hstep, Function.comp_def] using hkeeps.shared

theorem transfers_subperm (hexec : Exec (next lim cfg) (start T cfg) tr s) :
    (transfers tr).Subperm (claimsOf lim cfg tr) := by
  obtain ⟨l, hperm, hsub⟩ := Threads.given_subperm_taken balance (fun _ ↦ rfl) hexec
  exact ⟨_, hperm.map Prod.snd, hsub.map Prod.snd⟩

theorem transfers_perm (hexec : Exec (next lim cfg) (start T cfg) tr s)
    (hend : ∀ t, pending (s.loc t) = []) : (transfers tr).Perm (claimsOf lim cfg tr) :=
  (Threads.given_perm_taken balance (fun _ ↦ rfl) hexec hend).map Prod.snd

theorem nonempty_of_setUp (hexec : Exec (next lim cfg) (start T cfg) tr s)
    (hup : s.shared.SetUp) : Nonempty T := by
  cases hexec with
  | nil => exact absurd rfl hup.1
  | @snoc _ _ _ e => exact ⟨e.1⟩

theorem sent_of_returned (hexec : Exec (next lim cfg) (start T cfg) tr s)
    (hlocal : ∀ t, Local lim cfg s.shared (s.loc t)) (hup : s.shared.SetUp)
    (hend : ∀ t, ∃ ok, s.loc t = .returned ok) : s.shared.sentBytes = cfg.totalBytes := by
  obtain ⟨t⟩ := nonempty_of_setUp hexec hup
  obtain ⟨ok, ht⟩ := hend t
  have hl := hlocal t
  rw [ht] at hl
  exact (hl.resolve_left hup.2).2

/-- When no transfer fails, the transfers are disjoint pieces of the stream, none of them
empty or longer than the configured payload size; once all threads have returned they make up
the whole stream and the counters agree with them. -/
theorem transfers_tile (hexec : Exec (next lim cfg) (start T cfg) tr s)
    (hok : Meets (fun _ e ↦ e.2.TransferOk) tr) :
    (transfers tr).Pairwise (fun d e ↦ Disjoint (extent d) (extent e)) ∧
    (∀ d ∈ transfers tr, 0 < d.2 ∧ d.2 ≤ configured lim cfg) ∧
    (s.shared.SetUp → (∀ t, ∃ ok, s.loc t = .returned ok) →
      (∀ x, (∃ d ∈ transfers tr, x ∈ extent d) ↔ x < cfg.totalBytes) ∧
      ((transfers tr).map Prod.snd).sum = cfg.totalBytes ∧
      s.shared.sentBytes = cfg.totalBytes ∧
      s.shared.totalPackets = (transfers tr).length) := by
  obtain ⟨hshared, hlocal⟩ := shared_of_exec hexec hok
  have hsub := transfers_subperm hexec
  refine ⟨pairwise_of_subperm hshared.tiles hsub, fun d hd ↦ hshared.lengths d (hsub.subset hd),
    fun hup hend ↦ ?_⟩
  have hpending : ∀ t, pending (s.loc t) = [] := by
    intro t
    obtain ⟨ok, ht⟩ := hend t
    rw [ht]
    rfl
  have hperm := transfers_perm hexec hpending
  have hsent := sent_of_returned hexec hlocal hup hend
  have htiles := hsent ▸ hshared.tiles
  refine ⟨fun x ↦ ?_, ?_, hsent, ?_⟩
  · simpa using covers_of_perm htiles hperm x
  · simpa using sum_of_perm htiles hperm
  · rw [hshared.packets, hperm.length_eq]

end Runs

/-! Two threads write 5 bytes in pieces of 2, asynchronously. One of them claims the last
byte and writes it after the other has returned. -/

def fiveBytes : Config where
  npType := .rdma
  rdmaSync := false
  totalBytes := 5
  payloadSize := 2
  totalBytes_lt := by decide

def twoThreads : List (Bool × Act) :=
  [(false, .enter (some 8) true), (true, .enter none true), (false, .begin), (true, .begin),
    (false, .turn), (true, .turn), (true, .transfer true), (true, .turn),
    (false, .transfer true), (false, .turn), (false, .wait true), (false, .finish),
    (false, .stop true), (true, .transfer true), (true, .turn), (true, .wait true),
    (true, .finish), (true, .stop true)]

theorem transfers_tile_twoThreads :
    ∃ tr s, Exec (next ⟨8, 8, 8, 8, 8, 8⟩ fiveBytes) (start Bool fiveBytes) tr s ∧
      transfers tr = [(2, 2), (0, 2), (4, 1)] ∧
      (∀ x, (∃ d ∈ transfers tr, x ∈ extent d) ↔ x < 5) ∧ s.shared.totalPackets = 3 := by
  obtain ⟨tr, s, hexec, hok, htransfers, hup, hend⟩ : ∃ tr s,
      Exec (next ⟨8, 8, 8, 8, 8, 8⟩ fiveBytes) (start Bool fiveBytes) tr s ∧
      Meets (fun _ e ↦ e.2.TransferOk) tr ∧ transfers tr = [(2, 2), (0, 2), (4, 1)] ∧
      s.shared.SetUp ∧ ∀ t, ∃ ok, s.loc t = .returned ok :=
    Exec.exists_of_run twoThreads (by decide +kernel)
  obtain ⟨hcovers, -, -, hpackets⟩ := (transfers_tile hexec hok).2.2 hup hend
  exact ⟨tr, s, hexec, htransfers, hcovers, by rw [hpackets, htransfers]; rfl⟩

end AxiomApps.Netperf
