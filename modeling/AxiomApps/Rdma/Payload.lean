import AxiomApps.Lib.Memory

/-!
# The payload list

The `main` functions of axiom-rdma and axiom-rdma-dbg read bytes from the command line into
`s.payload` and repeat them up to the payload size. The counters are 32 bits wide. `payload` is
the memory from `&s.payload[0]` on, what lies behind the array included, and `maxSize` is
`sizeof(s.payload)`, an `int`.
-/

namespace AxiomApps.Rdma

inductive Program
  | rdma | rdmaDbg
  deriving DecidableEq, Repr

/-- `axrdma_mode_t`, with one value for all other characters. -/
inductive Mode
  | rdmaRead | rdmaWrite | localDump | localStore | other
  deriving DecidableEq, Repr

/-- The modes in which `main` reads the payload list. -/
def readsPayload : Program → Mode → Bool
  | .rdma, .localStore | .rdma, .rdmaRead | .rdma, .rdmaWrite => true
  | .rdmaDbg, .localStore => true
  | _, _ => false

/-- `s.payload`, with the ranges written so far as first index and length. -/
structure Payload where
  payload : ℕ → UInt8
  written : List (ℕ × ℕ) := []

def Payload.put (p : Payload) (i : ℕ) (b : UInt8) : Payload :=
  ⟨Memory.write p.payload i [b], p.written ++ [(i, 1)]⟩

/-- `memcpy(&s.payload[dst], &s.payload[0], n)` -/
def Payload.memcpy (p : Payload) (dst n : ℕ) : Payload :=
  ⟨Memory.copy p.payload dst 0 n, p.written ++ [(dst, n)]⟩

def sub32 (a b : ℕ) : ℕ := (a + (2 ^ 32 - b % 2 ^ 32)) % 2 ^ 32

section

variable {α : Type*} (scan : α → Option UInt8)

/-- The loop over the arguments, from `i` on; `scan` is `sscanf` with `SCNu8`. -/
def readBytes (maxSize : ℕ) : List α → ℕ → Payload → Except String (ℕ × Payload)
  | [], i, p => .ok (i, p)
  | arg :: args, i, p =>
      if i < maxSize then
        match scan arg with
        | none => .error s!"wrong payload byte [index = {i}]"
        | some b => readBytes maxSize args (i + 1) (p.put i b)
      else .ok (i, p)

/-- The loop that makes whole copies; none if it takes more than `fuel` turns. -/
def copyLoop (payloadSize origPsize : ℕ) : ℕ → ℕ → Payload → Option (ℕ × Payload)
  | 0, _, _ => none
  | fuel + 1, payloadRead, p =>
      if (payloadRead + origPsize) % 2 ^ 32 ≤ payloadSize then
        copyLoop payloadSize origPsize fuel ((payloadRead + origPsize) % 2 ^ 32)
          (p.memcpy payloadRead origPsize)
      else some (payloadRead, p)

/-- The copy of the rest. -/
def lastCopy (payloadSize payloadRead : ℕ) (p : Payload) : Payload :=
  if 0 < sub32 payloadSize payloadRead then
    p.memcpy payloadRead (sub32 payloadSize payloadRead)
  else p

def repeatBytes (payloadSize origPsize : ℕ) (p : Payload) : Option Payload :=
  (copyLoop payloadSize origPsize (payloadSize + 1) origPsize p).map fun q ↦
    lastCopy payloadSize q.1 q.2

/-- The part of `main` under `/* read payload list */`. -/
def readPayload (prog : Program) (mode : Mode) (maxSize payloadSize : ℕ) (args : List α)
    (payload : ℕ → UInt8) : Except String (Option Payload) :=
  if readsPayload prog mode then
    if payloadSize = 0 ∨ maxSize < payloadSize then
      .error s!"You must specify the payload size (max {maxSize}) [-s]"
    else
      match readBytes scan maxSize args 0 ⟨payload, []⟩ with
      | .error msg => .error msg
      | .ok (payloadRead, p) =>
          if payloadRead = 0 then .error "You must specify at least one byte of payload"
          else .ok (repeatBytes payloadSize payloadRead p)
  else .ok (some ⟨payload, []⟩)

end

/-- The first `k` bytes of `bytes` stand in the payload again and again up to `n`. -/
def Repeated (bytes : List UInt8) (k n : ℕ) (p : Payload) : Prop :=
  ∀ i < n, bytes[i % k]? = some (p.payload i)

def Inside (maxSize : ℕ) (p : Payload) : Prop := ∀ w ∈ p.written, w.1 + w.2 ≤ maxSize

variable {α : Type*} {scan : α → Option UInt8} {maxSize payloadSize k n r : ℕ} {p : Payload}
  {bytes : List UInt8}

@[simp] theorem payload_put (p : Payload) (i : ℕ) (b : UInt8) :
    (p.put i b).payload = Memory.write p.payload i [b] :=
  rfl

@[simp] theorem payload_memcpy (p : Payload) (dst n : ℕ) :
    (p.memcpy dst n).payload = Memory.copy p.payload dst 0 n :=
  rfl

theorem Inside.put (h : Inside maxSize p) {i : ℕ} (hi : i < maxSize) (b : UInt8) :
    Inside maxSize (p.put i b) :=
  List.forall_mem_append.mpr ⟨h, List.forall_mem_singleton.mpr hi⟩

theorem Inside.memcpy (h : Inside maxSize p) (hn : r + n ≤ maxSize) :
    Inside maxSize (p.memcpy r n) :=
  List.forall_mem_append.mpr ⟨h, List.forall_mem_singleton.mpr hn⟩

/-- A copy of what stands at the front continues the pattern after whole periods. -/
theorem Repeated.memcpy (h : Repeated bytes k r p) (hr : k ∣ r) (hn : n ≤ r) :
    Repeated bytes k (r + n) (p.memcpy r n) := by
  intro i hi
  obtain hlt | hle := lt_or_ge i r
  · rw [h i hlt, payload_memcpy, Memory.copy_of_below hlt]
  · obtain ⟨j, rfl⟩ := Nat.exists_eq_add_of_le hle
    have hj : j < n := by omega
    obtain ⟨c, rfl⟩ := hr
    rw [payload_memcpy, Memory.copy_of_lt hj, Nat.zero_add, ← h j (hj.trans_le hn),
      Nat.mul_add_mod]

/-! ## The argument loop -/

theorem readBytes_ok {args : List α} (h : args.Forall₂ (fun a b ↦ scan a = some b) bytes) {i : ℕ}
    (hi : i ≤ maxSize) (hp : Inside maxSize p) :
    ∃ p', readBytes scan maxSize args i p = .ok (min (i + bytes.length) maxSize, p') ∧
      Inside maxSize p' ∧ (∀ x < i, p'.payload x = p.payload x) ∧
      ∀ x, i + x < min (i + bytes.length) maxSize → bytes[x]? = some (p'.payload (i + x)) := by
  induction h generalizing i p with
  | nil =>
      refine ⟨p, ?_, hp, fun _ _ ↦ rfl, fun x hx ↦ ?_⟩
      · rw [readBytes, List.length_nil, Nat.add_zero, min_eq_left hi]
      · rw [List.length_nil] at hx
        omega
  | @cons a b args bytes hab _ ih =>
      obtain hlt | heq := hi.lt_or_eq
      · obtain ⟨p', hrun, hin, hbelow, habove⟩ := ih hlt (hp.put hlt b)
        have hlen : i + 1 + bytes.length = i + (b :: bytes).length := by
          rw [List.length_cons]
          omega
        rw [hlen] at hrun habove
        refine ⟨p', ?_, hin, fun x hx ↦ ?_, fun x hx ↦ ?_⟩
        · rw [readBytes, if_pos hlt, hab, ← hrun]
        · rw [hbelow x (by omega), payload_put, Memory.write_of_lt _ hx]
        · cases x with
          | zero =>
              have hb : (p.put i b).payload (i + 0) = b := Memory.write_of_getElem? rfl
              rw [hbelow (i + 0) (Nat.lt_succ_self i), hb, List.getElem?_cons_zero]
          | succ x =>
              have hshift : i + 1 + x = i + (x + 1) := by omega
              rw [List.getElem?_cons_succ, habove x (by omega), hshift]
      · refine ⟨p, ?_, hp, fun _ _ ↦ rfl, fun x hx ↦ ?_⟩
        · rw [readBytes, if_neg heq.not_lt, min_eq_right (by omega), heq]
        · omega

/-! ## The copies -/

/-- The invariant of the copies: `r` bytes stand, in whole periods. -/
theorem copyLoop_repeated (hmax : maxSize < 2 ^ 31) (hk : 0 < k) (hsize : payloadSize ≤ maxSize)
    {fuel : ℕ} (hfuel : payloadSize < r + fuel) (hr : k ∣ r) (hkr : k ≤ r) (hle : r ≤ payloadSize)
    (hp : Inside maxSize p) (hrep : Repeated bytes k r p) :
    ∃ r' p', copyLoop payloadSize k fuel r p = some (r', p') ∧ k ∣ r' ∧ k ≤ r' ∧
      r' ≤ payloadSize ∧ payloadSize < r' + k ∧ Inside maxSize p' ∧ Repeated bytes k r' p' := by
  induction fuel generalizing r p with
  | zero => omega
  | succ fuel ih =>
      rw [copyLoop, Nat.mod_eq_of_lt (by omega)]
      split
      case isTrue h =>
        exact ih (by omega) (hr.add (dvd_refl k)) (by omega) h (hp.memcpy (h.trans hsize))
          (hrep.memcpy hr hkr)
      case isFalse h => exact ⟨r, p, rfl, hr, hkr, hle, Nat.lt_of_not_le h, hp, hrep⟩

theorem sub32_of_le {a b : ℕ} (ha : a < 2 ^ 32) (h : b ≤ a) : sub32 a b = a - b := by
  rw [sub32]
  omega

/-- A difference below zero is taken around. -/
theorem sub32_of_lt {a b : ℕ} (hb : b < 2 ^ 32) (h : a < b) : sub32 a b = 2 ^ 32 + a - b := by
  rw [sub32]
  omega

theorem repeatBytes_repeated (hmax : maxSize < 2 ^ 31) (hk : 0 < k) (hsize : payloadSize ≤ maxSize)
    (hle : k ≤ payloadSize) (hp : Inside maxSize p) (hrep : Repeated bytes k k p) :
    ∃ p', repeatBytes payloadSize k p = some p' ∧ Repeated bytes k payloadSize p' ∧
      Inside maxSize p' := by
  obtain ⟨r, q, hrun, hdvd, hkr, hr, hlt, hq, hqrep⟩ :=
    copyLoop_repeated hmax hk hsize (by omega : payloadSize < k + (payloadSize + 1)) (dvd_refl k)
      le_rfl hle hp hrep
  rw [repeatBytes, hrun, Option.map_some, lastCopy, sub32_of_le (by omega) hr]
  split
  case isTrue h =>
    have hrest : Repeated bytes k (r + (payloadSize - r)) (q.memcpy r (payloadSize - r)) :=
      hqrep.memcpy hdvd (by omega)
    rw [Nat.add_sub_of_le hr] at hrest
    exact ⟨_, rfl, hrest, hq.memcpy (by omega)⟩
  case isFalse h =>
    have hall : r = payloadSize := by omega
    exact ⟨q, rfl, hall ▸ hqrep, hq⟩

/-- With more bytes than the payload size the last copy goes far behind the array. -/
theorem repeatBytes_outside (hmax : maxSize < 2 ^ 31) (hk : k ≤ maxSize)
    (hlt : payloadSize < k) :
    ∃ p', repeatBytes payloadSize k p = some p' ∧ ¬ Inside maxSize p' := by
  have hstop : copyLoop payloadSize k (payloadSize + 1) k p = some (k, p) := by
    rw [copyLoop, if_neg]
    rw [Nat.mod_eq_of_lt (by omega)]
    omega
  rw [repeatBytes, hstop, Option.map_some, lastCopy, sub32_of_lt (by omega) hlt, if_pos (by omega)]
  refine ⟨_, rfl, fun h ↦ ?_⟩
  have hw := h (k, 2 ^ 32 + payloadSize - k) (List.mem_append_right _ (List.mem_singleton_self _))
  dsimp only at hw
  omega

/-- The payload holds the bytes read, repeated, and nothing outside it was written exactly when
no more bytes are read than the payload size. -/
theorem payload_repeated_iff (scan : α → Option UInt8) (prog : Program) (mode : Mode)
    (maxSize payloadSize : ℕ) (args : List α) (bytes : List UInt8) (payload : ℕ → UInt8)
    (hmode : readsPayload prog mode = true) (hmax : maxSize < 2 ^ 31)
    (hsize : 1 ≤ payloadSize ∧ payloadSize ≤ maxSize)
    (hargs : args.Forall₂ (fun a b ↦ scan a = some b) bytes) (hne : bytes ≠ []) :
    (∃ p, readPayload scan prog mode maxSize payloadSize args payload = .ok (some p) ∧
      Repeated bytes (min bytes.length maxSize) payloadSize p ∧ Inside maxSize p) ↔
      min bytes.length maxSize ≤ payloadSize := by
  have hlen : 0 < bytes.length := List.length_pos_iff.mpr hne
  obtain ⟨q, hread, hq, -, hbytes⟩ :=
    readBytes_ok (p := ⟨payload, []⟩) hargs (Nat.zero_le maxSize) (by simp [Inside])
  rw [Nat.zero_add] at hread hbytes
  have hrun : readPayload scan prog mode maxSize payloadSize args payload =
      .ok (repeatBytes payloadSize (min bytes.length maxSize) q) := by
    rw [readPayload, if_pos hmode, if_neg (by omega), hread]
    exact if_neg (by omega)
  rw [hrun]
  constructor
  · rintro ⟨p, hp, -, hin⟩
    by_contra hlt
    obtain ⟨p', hp', hout⟩ := repeatBytes_outside (p := q) hmax (min_le_right bytes.length maxSize)
      (Nat.lt_of_not_le hlt)
    rw [hp'] at hp
    cases hp
    exact hout hin
  · intro hle
    have hrep : Repeated bytes (min bytes.length maxSize) (min bytes.length maxSize) q := by
      intro i hi
      rw [Nat.mod_eq_of_lt hi, hbytes i (by rwa [Nat.zero_add]), Nat.zero_add]
    obtain ⟨p', hp', h⟩ := repeatBytes_repeated hmax (by omega) hsize.2 hle hq hrep
    exact ⟨p', by rw [hp'], h⟩

theorem payload_repeated_three :
    min 2 8 ≤ 3 ∧
      ∃ p, readPayload some .rdmaDbg .localStore 8 3 [5, 6] (fun _ ↦ 0) = .ok (some p) ∧
        Repeated [5, 6] (min 2 8) 3 p ∧ Inside 8 p :=
  ⟨by decide,
    (payload_repeated_iff some .rdmaDbg .localStore 8 3 [5, 6] [5, 6] (fun _ ↦ 0) rfl (by decide)
      (by decide) (.cons rfl (.cons rfl .nil)) (by decide)).mpr (by decide)⟩

/-- Three bytes for a payload of two: nearly `2 ^ 32` bytes are copied into an array of eight. -/
theorem longPattern_overruns :
    ∃ p, readPayload some .rdma .localStore 8 2 [5, 6, 7] (fun _ ↦ 0) = .ok (some p) ∧
      (3, 2 ^ 32 - 1) ∈ p.written ∧ ¬ Inside 8 p := by
  refine ⟨_, rfl, by decide, fun h ↦ ?_⟩
  have hw := h (3, 2 ^ 32 - 1) (by decide)
  simp at hw

end AxiomApps.Rdma
