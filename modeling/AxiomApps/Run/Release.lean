import AxiomApps.Run.Barrier

/-!
# The bytes of a barrier release

A message is a header of 20 bytes: the command, three bytes of padding and a union, at whose
beginning a message `CMD_BARRIER` has the barrier, least significant byte first. The slave
passes a release on to the child, but takes the number of bytes from the variable that holds
the result of `select`. The child receives it into the header it has sent as its request.
-/

namespace AxiomApps.Run.Release

open Barrier (Command axrunMaxBarrierId)

/-- `sizeof (header_t)` -/
def headerSize : ℕ := 20

def code : Command → UInt8
  | .exit => 0x80
  | .kill => 0x81
  | .sendToStdout => 0x82
  | .sendToStderr => 0x83
  | .recvFromStdin => 0x84
  | .barrier => 0x85
  | .rpc => 0x86
  | .start => 0x87

/-- The command in the bytes of a header, if they contain it. -/
def command? (bs : List UInt8) : Option UInt8 := bs.head?

/-- The barrier in the bytes of a header, if they contain it. -/
def barrierId? (bs : List UInt8) : Option ℕ :=
  if 8 ≤ bs.length then some (Nat.ofDigits 256 (((bs.drop 4).take 4).map UInt8.toNat)) else none

/-- The bytes are those of a header; nothing is said of padding and the rest of the union. -/
structure Encodes (bs : List UInt8) (m : Barrier.Header) : Prop where
  length : bs.length = headerSize
  command : command? bs = some (code m.command)
  barrierId : barrierId? bs = some m.barrierId

/-- The descriptors `select` has found ready. -/
structure Ready where
  endfd : Bool
  rawfd : Bool
  deriving DecidableEq, Repr

def selectResult (r : Ready) : ℕ := r.endfd.toNat + r.rawfd.toNat

/-- A turn of the loop of `recv_thread` that receives a message, for `CMD_BARRIER`: the name
the datagram is sent to and its bytes. -/
def recvThread (sv : Services) (r : Ready) (bs : List UInt8) : Option (ℕ × List UInt8) :=
  let res := selectResult r
  if r.endfd = true ∨ r.rawfd = false then none
  else if command? bs = some (code .barrier) ∧ sv.barrier = true then
    let sz := res
    (barrierId? bs).map fun id ↦ (id, bs.take sz)
  else none

/-- What a slave does, if it has started the thread. -/
def relays (sv : Services) (r : Ready) (bs : List UInt8) : Option (ℕ × List UInt8) :=
  if sv.slave.recvThread = true then recvThread sv.slave r bs else none

/-- `recv` into a header. -/
def receive (header d : List UInt8) : List UInt8 :=
  d.take headerSize ++ header.drop (d.take headerSize).length

/-- What `axrun_sync` returns after it received a datagram into its request. -/
def syncResult (id : ℕ) (header : List UInt8) : ℤ :=
  if barrierId? header ≠ some id ∨ command? header ≠ some (code .barrier) then -1 else 0

/-- A message the master sends to all slaves. -/
def Broadcast (bs : List UInt8) (id : ℕ) : Prop :=
  Encodes bs ⟨.barrier, id⟩ ∧ id ≤ axrunMaxBarrierId

/-! ## One byte -/

theorem code_injective : Function.Injective code := by
  intro c c' h
  cases c <;> cases c' <;> first | rfl | cases h

theorem selectResult_raw {r : Ready} (hend : r.endfd = false) (hraw : r.rawfd = true) :
    selectResult r = 1 := by
  rw [selectResult, hend, hraw]
  rfl

theorem take_one {bs : List UInt8} {m : Barrier.Header} (h : Encodes bs m) :
    bs.take 1 = [code m.command] := by
  have hcommand := h.command
  rw [command?] at hcommand
  obtain ⟨rest, rfl⟩ := List.head?_eq_some_iff.mp hcommand
  rfl

/-- The datagram is the command, as the model of the barrier service has it. -/
theorem recvThread_eq (sv : Services) {bs : List UInt8} {m : Barrier.Header} (h : Encodes bs m)
    {r : Ready} (hend : r.endfd = false) (hraw : r.rawfd = true) :
    recvThread sv r bs = (Barrier.recvThread sv m).map fun p ↦ (p.1, [code p.2]) := by
  have hready : ¬ (r.endfd = true ∨ r.rawfd = false) := by simp [hend, hraw]
  have hcommand : command? bs = some (code .barrier) ↔ m.command = .barrier := by
    rw [h.command, Option.some.injEq]
    exact code_injective.eq_iff
  rw [recvThread, if_neg hready, Barrier.recvThread]
  simp only [hcommand, h.barrierId, selectResult_raw hend hraw, take_one h, Option.map_some]
  split_ifs <;> rfl

/-- The bytes of the request that the datagram leaves are those of the barrier. -/
theorem receive_one {header : List UInt8} {id : ℕ} (h : Encodes header ⟨.barrier, id⟩)
    (b : UInt8) : command? (receive header [b]) = some b ∧
      barrierId? (receive header [b]) = some id := by
  have hlength := h.length
  have hbarrier := h.barrierId
  obtain ⟨c, rest, rfl⟩ : ∃ c rest, header = c :: rest :=
    List.exists_cons_of_length_pos (by rw [hlength]; decide)
  exact ⟨rfl, hbarrier⟩

/-- Of a datagram of one byte only the command is checked, as in the model of the barrier
service. -/
theorem syncResult_eq {header : List UInt8} {id : ℕ} (h : Encodes header ⟨.barrier, id⟩)
    (c : Command) : syncResult id (receive header [code c]) = Barrier.syncResult id c := by
  obtain ⟨hcommand, hbarrier⟩ := receive_one h (code c)
  simp [syncResult, hcommand, hbarrier, Barrier.syncResult, Barrier.syncHeader,
    code_injective.eq_iff]

/-! ## The check -/

/-- Releases for barrier 3 and requests for it, the rest of the header being 0. -/
def release : List UInt8 := [0x85, 0, 0, 0, 3, 0, 0, 0] ++ List.replicate 12 0

theorem encodes_release : Encodes release ⟨.barrier, 3⟩ :=
  ⟨rfl, rfl, by decide⟩

theorem relays_release {sv : Services} (hbarrier : sv.barrier = true)
    (hrecv : sv.recvThread = true) : relays sv ⟨false, true⟩ release = some (3, [0x85]) := by
  have hslave : sv.slave.recvThread = true := by
    rw [Services.slave_eq]
    exact hrecv
  have hservice : sv.slave.barrier = true := by
    rw [Services.slave_eq]
    exact hbarrier
  rw [relays, if_pos hslave, recvThread_eq _ encodes_release rfl rfl, Barrier.recvThread,
    if_pos ⟨rfl, hservice⟩]
  rfl

/-- Every release is passed on completely, and taken for one only if it contains the command
and the barrier, just when the slaves pass on no release at all. -/
theorem release_checked_iff (sv : Services) :
    (∀ r bs id name d, Broadcast bs id → relays sv r bs = some (name, d) →
      d = bs ∧ ∀ header, Encodes header ⟨.barrier, name⟩ →
        syncResult name (receive header d) = 0 →
          command? d = some (code .barrier) ∧ barrierId? d = some name) ↔
      ¬ (sv.barrier = true ∧ sv.recvThread = true) := by
  constructor
  · rintro h ⟨hbarrier, hrecv⟩
    obtain ⟨hcomplete, -⟩ := h _ _ 3 _ _ ⟨encodes_release, by decide⟩
      (relays_release hbarrier hrecv)
    exact absurd hcomplete (by decide)
  · intro hnone r bs id name d _ hrelays
    exfalso
    rw [relays, Services.slave_eq] at hrelays
    split_ifs at hrelays with hrecv
    simp only [recvThread] at hrelays
    split_ifs at hrelays with hready hbarrier
    exact hnone ⟨hbarrier.2, hrecv⟩

/-- With all services the release of barrier 3 reaches the child as one byte, which contains
no barrier, and `axrun_sync(3)` returns 0. -/
theorem release_unchecked :
    Broadcast release 3 ∧
    relays (.ofOptions [.profileAll]) ⟨false, true⟩ release = some (3, [0x85]) ∧
    [0x85] ≠ release ∧ barrierId? [0x85] = none ∧
    syncResult 3 (receive release [0x85]) = 0 :=
  ⟨⟨encodes_release, by decide⟩, relays_release rfl rfl, by decide, rfl, by decide⟩

end AxiomApps.Run.Release
