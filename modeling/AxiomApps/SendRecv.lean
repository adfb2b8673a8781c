import AxiomApps.Lib.Iovec
import AxiomApps.Rdma.Payload

/-!
# axiom-send and axiom-recv

axiom-send reads bytes from its command line, repeats them, and sends the result one or more
times, from one buffer or from several. axiom-recv receives into one buffer or several, and
prints what it has got. The buffers are pieces of a payload of the largest size. What the calls
of the NIC library do with them is a parameter.
-/

namespace AxiomApps.SendRecv

open Rdma Tiling

/-! ## The programs -/

/-- `AXIOM_RAW_PAYLOAD_MAX_SIZE` and `AXIOM_LONG_PAYLOAD_MAX_SIZE`, which is `sizeof(payload)`. -/
structure Limits where
  rawMax : ℕ
  longMax : ℕ

/-- `AXNP_RAW`, `AXNP_LONG` and `AXNP_RAW | AXNP_LONG`. -/
inductive NpType
  | raw
  | long
  | any
  deriving DecidableEq, Repr

def NpType.maxSize (lim : Limits) : NpType → ℕ
  | .raw => lim.rawMax
  | .long | .any => lim.longMax

/-- The calls of the NIC library, by the type the programs choose them for: the messages that
`axiom_send_raw`, `axiom_send_long`, `axiom_send` and their variants with a table of buffers make
of a size and a memory; which messages the calls that receive are given; and what these store,
with the size they return, none for an error. -/
structure Api (μ : Type*) where
  payload : μ → List UInt8
  send : NpType → ℕ → (ℕ → UInt8) → μ
  sendIov : NpType → ℕ → (ℕ → UInt8) → List (ℕ × ℕ) → μ
  takes : NpType → μ → Bool
  recv : NpType → ℕ → (ℕ → UInt8) → μ → Option (ℕ × (ℕ → UInt8))
  recvIov : NpType → ℕ → (ℕ → UInt8) → List (ℕ × ℕ) → μ → Option (ℕ × (ℕ → UInt8))

/-- What is assumed of the library: a message holds what is in the buffers, a message that there
is room for is stored in them, and no raw message is longer than allowed. -/
structure Api.Lawful {μ : Type*} (api : Api μ) (lim : Limits) : Prop where
  send : ∀ {np size} (mem : ℕ → UInt8), size ≤ np.maxSize lim →
    api.payload (api.send np size mem) = Memory.read mem 0 size
  sendIov : ∀ {np size l} (mem : ℕ → UInt8), (l.map Prod.snd).sum = size →
    size ≤ np.maxSize lim → api.payload (api.sendIov np size mem l) = Iovec.gather mem l
  recv : ∀ {np size m} (mem : ℕ → UInt8), api.takes np m = true → (api.payload m).length ≤ size →
    api.recv np size mem m =
      some ((api.payload m).length, Memory.write mem 0 (api.payload m))
  recvIov : ∀ {np size l m} (mem : ℕ → UInt8), api.takes np m = true →
    (api.payload m).length ≤ size → (api.payload m).length ≤ (l.map Prod.snd).sum →
    api.recvIov np size mem l m =
      some ((api.payload m).length, Iovec.scatter mem l (api.payload m))
  raw : ∀ {m}, api.takes .raw m = true → (api.payload m).length ≤ lim.rawMax

variable {μ : Type*} (api : Api μ)

/-- The loop that fills the table of buffers, from index `i` on. -/
def iovLoop (size newSize : ℕ) : ℕ → ℕ → ℕ → (ℕ → ℕ × ℕ) → ℕ → ℕ × ℕ
  | 0, _, _, iov => iov
  | turns + 1, i, offset, iov =>
      if offset < size then
        iovLoop size newSize turns (i + 1) (offset + newSize)
          (Function.update iov i (offset, newSize))
      else iov

/-- The first `cnt` entries of the table, as both programs fill it; `iov` is what it held. -/
def splitIov (cnt size : ℕ) (iov : ℕ → ℕ × ℕ) : List (ℕ × ℕ) :=
  let newSize := size / cnt
  let iov := iovLoop size newSize cnt 0 0 iov
  let iov := Function.update iov (cnt - 1) ((iov (cnt - 1)).1, size - newSize * (cnt - 1))
  (List.range cnt).map iov

/-- The table of buffers, if there is one: with more buffers than bytes it is not used. -/
def buffers (iovcnt : ℤ) (size : ℕ) (iov : ℕ → ℕ × ℕ) : Option (List (ℕ × ℕ)) :=
  if 0 < iovcnt ∧ iovcnt ≤ size then some (splitIov iovcnt.toNat size iov) else none

structure SendOptions where
  npType : NpType
  repeats : ℤ
  count : ℤ
  iovcnt : ℤ

inductive SendResult
  | ok
  | notReach
  | error
  deriving DecidableEq, Repr

/-- The loop over `i` from 1 to `repeat`. -/
def repeatLoop (maxSize origPsize : ℕ) : ℕ → ℕ → Payload → ℕ × Payload
  | 0, size, p => (size, p)
  | turns + 1, size, p =>
      if size + origPsize ≤ maxSize then
        repeatLoop maxSize origPsize turns (size + origPsize) (p.memcpy size origPsize)
      else (size, p)

/-- `axsnd_send` or `axsnd_send_iov` -/
def message (np : NpType) (iovcnt : ℤ) (size : ℕ) (payload : ℕ → UInt8) (iov : ℕ → ℕ × ℕ) : μ :=
  match buffers iovcnt size iov with
  | some l => api.sendIov np size payload l
  | none => api.send np size payload

/-- The sending loop, from number `seq` on. An error ends it, a node that is not reachable does
not. -/
def sendLoop (m : μ) (result : ℕ → SendResult) : ℕ → ℕ → List μ
  | 0, _ => []
  | turns + 1, seq =>
      match result seq with
      | .ok => m :: sendLoop m result turns (seq + 1)
      | .notReach => sendLoop m result turns (seq + 1)
      | .error => []

section

variable {α : Type*} (scan : α → Option UInt8)

/-- `main` of axiom-send, with the messages it sends. -/
def send (lim : Limits) (o : SendOptions) (args : List α) (payload : ℕ → UInt8)
    (iov : ℕ → ℕ × ℕ) (result : ℕ → SendResult) : Except String (List μ) :=
  let iovcnt := o.iovcnt
  if iovcnt < 0 ∨ 16 < iovcnt then
    .error s!"Number of iovec not allowed [{iovcnt}]; [0 <= iovcnt <= 16]"
  else
    match readBytes scan lim.longMax args 0 ⟨payload, []⟩ with
    | .error msg => .error msg
    | .ok (origPsize, p) =>
        if origPsize = 0 then .error "payload empty"
        else
          let r := repeatLoop lim.longMax origPsize (o.repeats - 1).toNat origPsize p
          let size := min r.1 (o.npType.maxSize lim)
          .ok (sendLoop (message api o.npType iovcnt size r.2.payload iov) result
            o.count.toNat 0)

end

structure RecvOptions where
  npType : NpType
  once : Bool
  noBlocking : Bool
  verbose : Bool
  maxPayload : ℤ
  iovcnt : ℤ

/-- `size_t payload_size = max_payload`, and what `axrcv_recv` makes of it. -/
def RecvOptions.size (lim : Limits) (o : RecvOptions) : ℕ :=
  let size := (o.maxPayload % 2 ^ 64).toNat
  if o.npType = .raw then min size lim.rawMax else size

/-- What is printed of a message: its size, and with `-v` its payload. -/
structure Printed where
  size : ℕ
  payload : Option (List UInt8)
  deriving DecidableEq, Repr

/-- `axrcv_recv` or `axrcv_recv_iov` -/
def receive (lim : Limits) (o : RecvOptions) (payload : ℕ → UInt8) (iov : ℕ → ℕ × ℕ) (m : μ) :
    Option (ℕ × (ℕ → UInt8)) :=
  match buffers o.iovcnt o.maxPayload.toNat iov with
  | some l => api.recvIov o.npType (o.size lim) payload l m
  | none => api.recv o.npType (o.size lim) payload m

def print (o : RecvOptions) (size : ℕ) (payload : ℕ → UInt8) : Printed :=
  ⟨size, if o.verbose then some (Memory.read payload 0 size) else none⟩

/-- The receiving loop on the messages its calls find, with what it prints. A call that finds none
waits; with `-n` it returns, and with `-o` that ends the loop too. So does an error. -/
def recvLoop (lim : Limits) (o : RecvOptions) (iov : ℕ → ℕ × ℕ) :
    (ℕ → UInt8) → List (Option μ) → List Printed
  | _, [] => []
  | payload, none :: polls =>
      if o.noBlocking ∧ o.once then [] else recvLoop lim o iov payload polls
  | payload, some m :: polls =>
      match receive api lim o payload iov m with
      | none => []
      | some (size, payload) =>
          print o size payload :: if o.once then [] else recvLoop lim o iov payload polls

/-- `main` of axiom-recv. A message of another type is not there for it. -/
def recv (lim : Limits) (o : RecvOptions) (payload : ℕ → UInt8) (iov : ℕ → ℕ × ℕ)
    (polls : List (Option μ)) : Except String (List Printed) :=
  let iovcnt := o.iovcnt
  if iovcnt < 0 ∨ 16 < iovcnt then
    .error s!"Number of iovec not allowed [{iovcnt}]; [0 <= iovcnt <= 16]"
  else .ok (recvLoop api lim o iov payload (polls.map fun m ↦ m.filter (api.takes o.npType)))

/-! ## The table of buffers -/

theorem iovLoop_apply {size newSize turns i offset : ℕ} (iov : ℕ → ℕ × ℕ) (hpos : 0 < newSize)
    (hle : offset + turns * newSize ≤ size) (j : ℕ) :
    iovLoop size newSize turns i offset iov j =
      if i ≤ j ∧ j < i + turns then (offset + (j - i) * newSize, newSize) else iov j := by
  induction turns generalizing i offset iov with
  | zero =>
      rw [iovLoop, if_neg (by omega)]
  | succ turns ih =>
      rw [Nat.succ_mul] at hle
      rw [iovLoop, if_pos (by omega), ih _ (by omega)]
      by_cases hj : j = i
      · subst hj
        simp
      · rw [Function.update_of_ne hj]
        by_cases hin : i + 1 ≤ j ∧ j < i + 1 + turns
        · obtain ⟨d, rfl⟩ := Nat.exists_eq_add_of_le hin.1
          have hsub : i + 1 + d - i = (i + 1 + d - (i + 1)) + 1 := by omega
          rw [if_pos hin, if_pos (by omega), hsub, Nat.succ_mul, Nat.add_assoc,
            Nat.add_comm newSize]
        · rw [if_neg hin, if_neg (by omega)]

theorem tiles_range (newSize : ℕ) (n : ℕ) :
    Tiles 0 ((List.range n).map fun j ↦ (j * newSize, newSize)) (n * newSize) := by
  induction n with
  | zero => simp
  | succ n ih =>
      rw [List.range_succ, List.map_append, Nat.succ_mul]
      exact ih.snoc newSize

/-- The buffers lie end to end and make up the whole size, the last one longer where the size is
no multiple of their number. -/
theorem tiles_splitIov {cnt size : ℕ} (iov : ℕ → ℕ × ℕ) (hpos : 0 < cnt) (hle : cnt ≤ size) :
    Tiles 0 (splitIov cnt size iov) size := by
  obtain ⟨c, rfl⟩ := Nat.exists_eq_succ_of_ne_zero hpos.ne'
  have hnew : 0 < size / (c + 1) := Nat.div_pos hle hpos
  have hmul : (c + 1) * (size / (c + 1)) ≤ size := Nat.mul_div_le ..
  simp only [splitIov, Nat.succ_eq_add_one, Nat.add_sub_cancel]
  generalize size / (c + 1) = q at hnew hmul ⊢
  have hloop : ∀ j < c + 1, iovLoop size q (c + 1) 0 0 iov j = (j * q, q) := by
    intro j hj
    rw [iovLoop_apply iov hnew (by rwa [Nat.zero_add]), if_pos (by omega)]
    simp
  rw [Nat.succ_mul] at hmul
  have hsize : c * q + (size - q * c) = size := by
    rw [Nat.mul_comm q]
    omega
  have hfront : (List.range c).map (Function.update (iovLoop size q (c + 1) 0 0 iov) c
      ((iovLoop size q (c + 1) 0 0 iov c).1, size - q * c)) =
      (List.range c).map fun j ↦ (j * q, q) := by
    refine List.map_congr_left fun j hj ↦ ?_
    have hlt := List.mem_range.mp hj
    rw [Function.update_of_ne hlt.ne, hloop j (by omega)]
  have htiles := (tiles_range q c).snoc (size - q * c)
  rw [hsize] at htiles
  rw [List.range_succ, List.map_append, hfront, List.map_singleton, Function.update_self,
    hloop c (by omega)]
  exact htiles

/-! ## What is sent -/

/-- Whole copies are added as long as there is room and more are wanted. -/
theorem repeatLoop_repeated {bytes : List UInt8} {maxSize k size : ℕ} {p : Payload} (turns : ℕ)
    (hk : 0 < k) (hdvd : k ∣ size) (hkle : k ≤ size) (hle : size ≤ maxSize)
    (h : Repeated bytes k size p) :
    (repeatLoop maxSize k turns size p).1 = size + k * min turns ((maxSize - size) / k) ∧
      Repeated bytes k (repeatLoop maxSize k turns size p).1
        (repeatLoop maxSize k turns size p).2 := by
  induction turns generalizing size p with
  | zero => simpa [repeatLoop] using h
  | succ turns ih =>
      rw [repeatLoop]
      by_cases hroom : size + k ≤ maxSize
      · rw [if_pos hroom]
        obtain ⟨hsize, hrep⟩ := ih (hdvd.add (dvd_refl k)) (by omega) hroom (h.memcpy hdvd hkle)
        refine ⟨?_, hrep⟩
        have hdiv : (maxSize - size) / k = (maxSize - (size + k)) / k + 1 := by
          rw [Nat.div_eq_sub_div hk (by omega), Nat.sub_sub]
        rw [hsize, hdiv, Nat.add_min_add_right, Nat.mul_add]
        omega
      · rw [if_neg hroom]
        have hdiv : (maxSize - size) / k = 0 := Nat.div_eq_of_lt (by omega)
        exact ⟨by simp [hdiv], h⟩

/-- The size of the messages axiom-send makes of the bytes it is given: of those for which there
is room, as many copies as are wanted and have room, and of that what a message holds. -/
def SendOptions.size (lim : Limits) (o : SendOptions) (given : ℕ) : ℕ :=
  let k := min given lim.longMax
  min (k + k * min (o.repeats - 1).toNat ((lim.longMax - k) / k)) (o.npType.maxSize lim)

theorem SendOptions.size_le (lim : Limits) (o : SendOptions) (given : ℕ) :
    o.size lim given ≤ o.npType.maxSize lim :=
  min_le_right ..

/-- The buffers of both programs lie end to end. -/
theorem tiles_buffers {iovcnt : ℤ} {size : ℕ} {iov : ℕ → ℕ × ℕ} {l : List (ℕ × ℕ)}
    (h : buffers iovcnt size iov = some l) : Tiles 0 l size := by
  simp only [buffers, Option.ite_none_right_eq_some, Option.some.injEq] at h
  obtain ⟨hcnt, rfl⟩ := h
  exact tiles_splitIov iov (by omega) (by omega)

section Send

variable {api} {lim : Limits}

theorem message_payload (hapi : api.Lawful lim) {np : NpType} {size : ℕ}
    (hsize : size ≤ np.maxSize lim) (iovcnt : ℤ) (payload : ℕ → UInt8) (iov : ℕ → ℕ × ℕ) :
    api.payload (message api np iovcnt size payload iov) = Memory.read payload 0 size := by
  rw [message]
  cases hbuffers : buffers iovcnt size iov with
  | none => exact hapi.send payload hsize
  | some l =>
      have htiles := tiles_buffers hbuffers
      rw [hapi.sendIov payload (by simpa using htiles.sum) hsize, Iovec.gather_of_tiles htiles,
        Nat.sub_zero]

theorem sendLoop_ok (m : μ) {result : ℕ → SendResult} {turns seq : ℕ}
    (h : ∀ i, seq ≤ i → i < seq + turns → result i = .ok) :
    sendLoop m result turns seq = List.replicate turns m := by
  induction turns generalizing seq with
  | zero => rfl
  | succ turns ih =>
      rw [sendLoop, h seq le_rfl (by omega), List.replicate_succ]
      exact congrArg (m :: ·) (ih fun i hi hlt ↦ h i (by omega) (by omega))

variable {α : Type*} {scan : α → Option UInt8} {args : List α} {bytes : List UInt8}

/-- From one buffer or several, axiom-send sends the bytes it is given, over and over. -/
theorem send_eq (hapi : api.Lawful lim) (o : SendOptions)
    (hargs : args.Forall₂ (fun a b ↦ scan a = some b) bytes) (hne : bytes ≠ [])
    (hlim : 0 < lim.longMax) (hiov : 0 ≤ o.iovcnt ∧ o.iovcnt ≤ 16) (payload : ℕ → UInt8)
    (iov : ℕ → ℕ × ℕ) (result : ℕ → SendResult) :
    ∃ m : μ, send api scan lim o args payload iov result =
        .ok (sendLoop m result o.count.toNat 0) ∧
      (api.payload m).length = o.size lim bytes.length ∧
      ∀ i < (api.payload m).length,
        (api.payload m)[i]? = bytes[i % min bytes.length lim.longMax]? := by
  have hlen : 0 < bytes.length := List.length_pos_iff.mpr hne
  obtain ⟨p, hread, -, -, hbytes⟩ :=
    readBytes_ok (p := ⟨payload, []⟩) hargs (Nat.zero_le lim.longMax) (by simp [Inside])
  rw [Nat.zero_add] at hread hbytes
  set k := min bytes.length lim.longMax with hk
  have hrep : Repeated bytes k k p := by
    intro i hi
    rw [Nat.mod_eq_of_lt hi, hbytes i (by rwa [Nat.zero_add]), Nat.zero_add]
  obtain ⟨hsize, hrepeated⟩ := repeatLoop_repeated (o.repeats - 1).toNat
    (by omega : 0 < k) (dvd_refl k) le_rfl (min_le_right ..) hrep
  set r := repeatLoop lim.longMax k (o.repeats - 1).toNat k p with hr
  have hall : min r.1 (o.npType.maxSize lim) = o.size lim bytes.length := by
    rw [hsize, SendOptions.size]
  have hpayload := message_payload hapi (o.size_le lim bytes.length) o.iovcnt r.2.payload iov
  refine ⟨message api o.npType o.iovcnt (o.size lim bytes.length) r.2.payload iov, ?_, ?_,
    fun i hi ↦ ?_⟩
  · have hok : ¬ (o.iovcnt < 0 ∨ 16 < o.iovcnt) := by omega
    have hsome : k ≠ 0 := by omega
    simp only [send, if_neg hok, hread, if_neg hsome, ← hr, hall]
  · rw [hpayload, Memory.length_read]
  · rw [hpayload, Memory.length_read] at hi
    have hin : i < r.1 := lt_of_lt_of_le hi (hall ▸ min_le_left ..)
    rw [hpayload, hrepeated i hin]
    simp [Memory.read, hi]

end Send

/-! ## What is received -/

/-- What is printed of a payload. -/
def RecvOptions.shown (o : RecvOptions) (bs : List UInt8) : Printed :=
  ⟨bs.length, if o.verbose then some bs else none⟩

/-- The messages the receiving loop gets to: all of them, or with `-o` the first one, which with
`-n` has to be there at once. -/
def RecvOptions.delivered (o : RecvOptions) (polls : List (Option μ)) : List μ :=
  if o.once then
    if o.noBlocking then (polls.take 1).reduceOption else polls.reduceOption.take 1
  else polls.reduceOption

section Recv

variable {api} {lim : Limits} {o : RecvOptions}

theorem receive_eq (hapi : api.Lawful lim) {m : μ} (htakes : api.takes o.npType m = true)
    (hmax : ((api.payload m).length : ℤ) ≤ o.maxPayload)
    (hsize : (api.payload m).length ≤ o.size lim) (payload : ℕ → UInt8) (iov : ℕ → ℕ × ℕ) :
    receive api lim o payload iov m =
      some ((api.payload m).length, Memory.write payload 0 (api.payload m)) := by
  rw [receive]
  cases hbuffers : buffers o.iovcnt o.maxPayload.toNat iov with
  | none => exact hapi.recv payload htakes hsize
  | some l =>
      have htiles := tiles_buffers hbuffers
      have hsum : (l.map Prod.snd).sum = o.maxPayload.toNat := by simpa using htiles.sum
      exact (hapi.recvIov payload htakes hsize (by omega)).trans
        (by rw [Iovec.scatter_of_tiles htiles (by omega)])

theorem print_write (o : RecvOptions) (payload : ℕ → UInt8) (bs : List UInt8) :
    print o bs.length (Memory.write payload 0 bs) = o.shown bs := by
  rw [print, Iovec.read_write, RecvOptions.shown]

theorem recvLoop_eq (hapi : api.Lawful lim) (iov : ℕ → ℕ × ℕ) {polls : List (Option μ)}
    (hfits : ∀ m, some m ∈ polls → api.takes o.npType m = true ∧
      ((api.payload m).length : ℤ) ≤ o.maxPayload ∧ (api.payload m).length ≤ o.size lim)
    (payload : ℕ → UInt8) :
    recvLoop api lim o iov payload polls =
      (o.delivered polls).map fun m ↦ o.shown (api.payload m) := by
  induction polls generalizing payload with
  | nil => simp [recvLoop, RecvOptions.delivered]
  | cons poll polls ih =>
      have hrest := ih fun m hm ↦ hfits m (List.mem_cons_of_mem _ hm)
      cases poll with
      | none =>
          rw [recvLoop]
          split_ifs with hends
          · simp [RecvOptions.delivered, hends]
          · rw [hrest]
            simp only [RecvOptions.delivered]
            split_ifs with honce hblock
            · exact absurd ⟨hblock, honce⟩ hends
            · rfl
            · rfl
      | some m =>
          obtain ⟨htakes, hmax, hsize⟩ := hfits m List.mem_cons_self
          rw [recvLoop, receive_eq hapi htakes hmax hsize payload iov]
          dsimp only
          rw [print_write, hrest]
          simp only [RecvOptions.delivered]
          split_ifs <;> simp

/-- A message that is taken and not longer than the receiver's maximum has room. -/
theorem length_le_size (hapi : api.Lawful lim) (hlong : lim.longMax < 2 ^ 31) {m : μ}
    (htakes : api.takes o.npType m = true)
    (hmax : ((api.payload m).length : ℤ) ≤ o.maxPayload) (hle : o.maxPayload ≤ lim.longMax) :
    (api.payload m).length ≤ o.size lim := by
  have hmod : o.maxPayload % 2 ^ 64 = o.maxPayload := Int.emod_eq_of_lt (by omega) (by omega)
  rw [RecvOptions.size, hmod]
  split_ifs with hraw
  · rw [hraw] at htakes
    exact le_min (by omega) (hapi.raw htakes)
  · omega

theorem reduceOption_map_filter {p : μ → Bool} {polls : List (Option μ)}
    (h : ∀ m ∈ polls.reduceOption, p m = true) : (polls.map fun m ↦ m.filter p) = polls := by
  refine (List.map_congr_left fun m hm ↦ ?_).trans (List.map_id _)
  cases m with
  | none => rfl
  | some m => exact Option.filter_some_pos (h m (List.reduceOption_mem_iff.mpr hm))

theorem mem_of_mem_delivered {polls : List (Option μ)} {m : μ} (h : m ∈ o.delivered polls) :
    m ∈ polls.reduceOption := by
  simp only [RecvOptions.delivered] at h
  split_ifs at h
  · rw [List.reduceOption_mem_iff] at h ⊢
    exact List.mem_of_mem_take h
  · exact List.mem_of_mem_take h
  · exact h

end Recv

/-- axiom-recv prints what axiom-send was given. If all sends succeed, as many messages go out as
were asked for, each of them with the given bytes over and over up to the size axiom-send makes of
them. If the receiver is given these messages, in their order and with any pauses, and its maximum
has room for that size, it prints of each message that it gets to this size and with `-v` these
bytes. The buffers of either side lie end to end and make up the whole size; their number and the
earlier contents of the payloads do not matter. -/
theorem recv_of_send {α : Type*} {lim : Limits} (hapi : api.Lawful lim) (scan : α → Option UInt8)
    (so : SendOptions) (ro : RecvOptions) (args : List α) (bytes : List UInt8)
    (payload payload' : ℕ → UInt8) (iov iov' : ℕ → ℕ × ℕ) (result : ℕ → SendResult)
    (hargs : args.Forall₂ (fun a b ↦ scan a = some b) bytes) (hne : bytes ≠ [])
    (hlim : 0 < lim.longMax ∧ lim.longMax < 2 ^ 31) (hso : 0 ≤ so.iovcnt ∧ so.iovcnt ≤ 16)
    (hro : 0 ≤ ro.iovcnt ∧ ro.iovcnt ≤ 16) (hresult : ∀ i < so.count.toNat, result i = .ok)
    (hroom : (so.size lim bytes.length : ℤ) ≤ ro.maxPayload ∧ ro.maxPayload ≤ lim.longMax) :
    (∀ l, buffers so.iovcnt (so.size lim bytes.length) iov = some l →
      Tiles 0 l (so.size lim bytes.length)) ∧
    (∀ l, buffers ro.iovcnt ro.maxPayload.toNat iov' = some l → Tiles 0 l ro.maxPayload.toNat) ∧
    ∃ ms bs, send api scan lim so args payload iov result = .ok ms ∧
      ms.length = so.count.toNat ∧ bs.length = so.size lim bytes.length ∧
      (∀ i < bs.length, bs[i]? = bytes[i % min bytes.length lim.longMax]?) ∧
      ((∀ m ∈ ms, api.takes ro.npType m = true) → ∀ polls, polls.reduceOption = ms →
        recv api lim ro payload' iov' polls =
          .ok (List.replicate (ro.delivered polls).length (ro.shown bs))) := by
  refine ⟨fun l ↦ tiles_buffers, fun l ↦ tiles_buffers, ?_⟩
  obtain ⟨m, hsend, hlength, hbytes⟩ := send_eq hapi so hargs hne hlim.1 hso payload iov result
  rw [sendLoop_ok m fun i _ hi ↦ hresult i (by omega)] at hsend
  refine ⟨_, api.payload m, hsend, List.length_replicate, hlength, hbytes,
    fun htakes polls hpolls ↦ ?_⟩
  have heq : ∀ m' ∈ polls.reduceOption, m' = m := fun m' hm' ↦
    List.eq_of_mem_replicate (hpolls ▸ hm')
  have hfits : ∀ m', some m' ∈ polls → api.takes ro.npType m' = true ∧
      ((api.payload m').length : ℤ) ≤ ro.maxPayload ∧
      (api.payload m').length ≤ ro.size lim := by
    intro m' hm'
    rw [← List.reduceOption_mem_iff] at hm'
    have htaken := htakes m' (hpolls ▸ hm')
    have hmax : ((api.payload m').length : ℤ) ≤ ro.maxPayload := by
      rw [heq m' hm', hlength]
      exact hroom.1
    exact ⟨htaken, hmax, length_le_size hapi hlim.2 htaken hmax hroom.2⟩
  have hok : ¬ (ro.iovcnt < 0 ∨ 16 < ro.iovcnt) := by omega
  simp only [recv, if_neg hok]
  rw [reduceOption_map_filter (hpolls ▸ htakes), recvLoop_eq hapi iov' hfits payload']
  refine congrArg Except.ok (List.eq_replicate_iff.mpr ⟨List.length_map _, ?_⟩)
  simp only [List.mem_map, forall_exists_index, and_imp]
  rintro _ m' hm' rfl
  rw [heq m' (mem_of_mem_delivered hm')]

def smallLimits : Limits := ⟨5, 9⟩

/-- A library whose messages are their payloads. -/
def plainApi : Api (List UInt8) where
  payload := id
  send _ size mem := Memory.read mem 0 size
  sendIov _ _ mem l := Iovec.gather mem l
  takes np m := np ≠ .raw ∨ m.length ≤ 5
  recv _ _ mem m := some (m.length, Memory.write mem 0 m)
  recvIov _ _ mem l m := some (m.length, Iovec.scatter mem l m)

theorem plainApi_lawful : plainApi.Lawful smallLimits where
  send _ _ := rfl
  sendIov _ _ _ := rfl
  recv _ _ _ := rfl
  recvIov _ _ _ _ := rfl
  raw h := by simpa [plainApi, smallLimits] using h

/-- Three bytes, repeated in two buffers of a raw message and taken in three. -/
theorem recv_of_send_five : ∃ ms bs,
    send plainApi some smallLimits ⟨.raw, 4, 2, 2⟩ [7, 8, 9] (fun _ ↦ 0) (fun _ ↦ (0, 0))
        (fun _ ↦ .ok) = .ok ms ∧
      recv plainApi smallLimits ⟨.any, false, true, true, 6, 3⟩ (fun _ ↦ 1) (fun _ ↦ (0, 0))
        (none :: ms.map some) = .ok (List.replicate 2 ⟨5, some bs⟩) ∧
      bs.length = 5 ∧ ∀ i < bs.length, bs[i]? = [7, 8, 9][i % 3]? := by
  obtain ⟨-, -, ms, bs, hsend, hms, hlength, hbytes, hrecv⟩ := recv_of_send plainApi
    plainApi_lawful some ⟨.raw, 4, 2, 2⟩ ⟨.any, false, true, true, 6, 3⟩ [7, 8, 9] [7, 8, 9]
    (fun _ ↦ 0) (fun _ ↦ 1) (fun _ ↦ (0, 0)) (fun _ ↦ (0, 0)) (fun _ ↦ .ok)
    (.cons rfl (.cons rfl (.cons rfl .nil))) (by decide) (by decide) (by decide) (by decide)
    (fun _ _ ↦ rfl) (by decide)
  have hpolls : (none :: ms.map some).reduceOption = ms := by
    simp [List.reduceOption, List.filterMap_map]
  have hlength' : bs.length = 5 := hlength
  have hms' : ms.length = 2 := hms
  refine ⟨ms, bs, hsend, (hrecv (fun _ _ ↦ rfl) _ hpolls).trans ?_, hlength', hbytes⟩
  change Except.ok (List.replicate (none :: ms.map some).reduceOption.length
    (⟨bs.length, some bs⟩ : Printed)) = _
  rw [hpolls, hms', hlength']

end AxiomApps.SendRecv
