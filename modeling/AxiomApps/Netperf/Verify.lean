import AxiomApps.Lib.IntLoop
import AxiomApps.Lib.Memory
import AxiomApps.Netperf.Server

/-!
# Verification of RDMA transfers

The client fills its RDMA zone with a magic word before it writes the first bytes of the zone to
the server, and the server looks for the word in its own zone. Both step through the zone in
words of eight bytes; what is transferred is counted in bytes.
-/

namespace AxiomApps.Netperf

/-- A zone, what lies behind it included, with the ranges written so far. -/
structure Filled where
  zone : ℕ → UInt8
  written : List (ℕ × ℕ) := []

def fillTurn (magic : BitVec 64) (i : ℕ) (f : Filled) : Bool × Filled :=
  (true, ⟨Memory.write f.zone i (Memory.bytes 8 magic.toNat), f.written ++ [(i, 8)]⟩)

/-- The loop at the end of `axnetperf_rdma_init`, none if its index overflows. -/
def fillZone (totalBytes : ℕ) (magic : BitVec 64) (zone : ℕ → UInt8) : Option Filled :=
  IntLoop.run 8 totalBytes (fillTurn magic) ⟨zone, []⟩

/-- The word at offset `i` of a zone. -/
def wordAt (zone : ℕ → UInt8) (i : ℕ) : ℕ := Memory.value (Memory.read zone i 8)

/-- `failed` in `axiom_netperf_reply`, with the ranges read so far. -/
structure Checked where
  failed : Bool := false
  read : List (ℕ × ℕ) := []

def checkTurn (zone : ℕ → UInt8) (magic i : ℕ) (c : Checked) : Bool × Checked :=
  if wordAt zone i ≠ magic then (false, ⟨true, c.read ++ [(i, 8)]⟩)
  else (true, ⟨c.failed, c.read ++ [(i, 8)]⟩)

/-- The loop of `axiom_netperf_reply` over the mapped zone. -/
def checkMagic (zone : ℕ → UInt8) (receivedBytes magic : ℕ) : Option Checked :=
  IntLoop.run 8 receivedBytes (checkTurn zone magic) {}

/-- The server's zone after exactly the first `totalBytes` bytes were written to it. -/
def copied (totalBytes : ℕ) (zone serverZone : ℕ → UInt8) : ℕ → UInt8 :=
  Memory.write serverZone 0 (Memory.read zone 0 totalBytes)

/-- Whatever the zones held before, the client fills its own without leaving it, and the check
of the bytes transferred stays in the server's and finds no error. -/
def Verifies (totalBytes rdmaSize serverSize : ℕ) (magic : BitVec 64) : Prop :=
  ∀ zone serverZone : ℕ → UInt8, ∃ f, fillZone totalBytes magic zone = some f ∧
    (∀ w ∈ f.written, w.1 + w.2 ≤ rdmaSize) ∧
    ∃ c, checkMagic (copied totalBytes f.zone serverZone) totalBytes magic.toNat = some c ∧
      (∀ r ∈ c.read, r.1 + r.2 ≤ serverSize) ∧ c.failed = false ∧
      ∀ (server : Server) (payloadSize replyPort : ℕ),
        (axiomNetperfReply server
          ⟨⟨.ended, totalBytes, .rdma, magic.toNat, replyPort⟩, payloadSize⟩
          (some (wordAt (copied totalBytes f.zone serverZone)))).2 =
          [⟨server.replyPort, totalBytes, false⟩]

variable {totalBytes rdmaSize serverSize i : ℕ} {magic : BitVec 64} {zone serverZone : ℕ → UInt8}

theorem toNat_magic_lt (magic : BitVec 64) : magic.toNat < 256 ^ 8 := magic.isLt

/-! ## Filling -/

/-- The words before offset `i` hold the magic one. -/
structure FilledTo (magic : BitVec 64) (i : ℕ) (f : Filled) : Prop where
  zone : ∀ x < i, f.zone x = Memory.byte magic.toNat (x % 8)
  written : IntLoop.Visited 8 (fun j ↦ (j, 8)) i f.written

theorem zone_fillTurn (f : Filled) :
    (fillTurn magic i f).2.zone = Memory.write f.zone i (Memory.bytes 8 magic.toNat) :=
  rfl

theorem FilledTo.turn {f : Filled} (h : FilledTo magic i f) (hi : 8 ∣ i) :
    FilledTo magic (i + 8) (fillTurn magic i f).2 where
  zone := by
    intro x hx
    obtain hlt | hle := lt_or_ge x i
    · rw [zone_fillTurn, Memory.write_of_lt _ hlt, h.zone x hlt]
    · obtain ⟨j, rfl⟩ := Nat.exists_eq_add_of_le hle
      have hj : j < 8 := by omega
      have hmod : (i + j) % 8 = j := by omega
      rw [zone_fillTurn, Memory.write_of_getElem? (Memory.getElem?_bytes hj), hmod]
  written := h.written.snoc (by decide) hi

theorem fillZone_eq_some (h : totalBytes + 8 ≤ 2 ^ 31) (magic : BitVec 64) (zone : ℕ → UInt8) :
    ∃ f i, fillZone totalBytes magic zone = some f ∧ totalBytes ≤ i ∧ i < totalBytes + 8 ∧ 8 ∣ i ∧
      FilledTo magic i f := by
  have hstart : FilledTo magic 0 ⟨zone, []⟩ :=
    ⟨fun x hx ↦ absurd hx (Nat.not_lt_zero x), IntLoop.visited_zero 8 _⟩
  exact IntLoop.run_invariant (by decide) h hstart fun i f _ hi hI ↦ ⟨rfl, hI.turn hi⟩

theorem le_of_fillZone {f : Filled} (h : fillZone totalBytes magic zone = some f) :
    totalBytes + 8 ≤ 2 ^ 31 := by
  by_contra hlt
  have hnone : fillZone totalBytes magic zone = none :=
    IntLoop.run_eq_none (by decide) (Nat.lt_of_not_le hlt) fun _ _ ↦ rfl
  rw [hnone] at h
  cases h

/-! ## Checking -/

theorem magicFailed_eq_false_iff {rdmaZone : ℕ → ℕ} {receivedBytes magic : ℕ} :
    magicFailed rdmaZone receivedBytes magic = false ↔
      ∀ j < receivedBytes, 8 ∣ j → rdmaZone j = magic := by
  simp only [magicFailed, List.any_eq_false, List.mem_range, Bool.decide_and, Bool.and_eq_true,
    decide_eq_true_eq, not_and, not_not, Nat.dvd_iff_mod_eq_zero]

/-- The ranges read are words of the part received. -/
def ReadsWords (receivedBytes : ℕ) (c : Checked) : Prop :=
  ∀ r ∈ c.read, ∃ j < receivedBytes, 8 ∣ j ∧ r = (j, 8)

theorem ReadsWords.snoc {c : Checked} (h : ReadsWords totalBytes c) (hi : i < totalBytes)
    (hdvd : 8 ∣ i) (failed : Bool) : ReadsWords totalBytes ⟨failed, c.read ++ [(i, 8)]⟩ :=
  List.forall_mem_append.mpr ⟨h, List.forall_mem_singleton.mpr ⟨i, hi, hdvd, rfl⟩⟩

/-- The words before offset `i` are the magic one. -/
structure CheckedTo (zone : ℕ → UInt8) (receivedBytes magic i : ℕ) (c : Checked) : Prop where
  reads : ReadsWords receivedBytes c
  failed : c.failed = false
  words : ∀ j < i, 8 ∣ j → wordAt zone j = magic

/-- Some word is not the magic one. -/
structure CheckFailed (zone : ℕ → UInt8) (receivedBytes magic : ℕ) (c : Checked) : Prop where
  reads : ReadsWords receivedBytes c
  failed : c.failed = true
  word : ∃ j < receivedBytes, 8 ∣ j ∧ wordAt zone j ≠ magic

theorem CheckedTo.turn {receivedBytes magic : ℕ} {c : Checked} (hi : i < receivedBytes)
    (hdvd : 8 ∣ i) (h : CheckedTo zone receivedBytes magic i c) :
    ((checkTurn zone magic i c).1 = true ∧
      CheckedTo zone receivedBytes magic (i + 8) (checkTurn zone magic i c).2) ∨
    ((checkTurn zone magic i c).1 = false ∧
      CheckFailed zone receivedBytes magic (checkTurn zone magic i c).2) := by
  rw [checkTurn]
  split
  case isTrue hne => exact .inr ⟨rfl, h.reads.snoc hi hdvd true, rfl, i, hi, hdvd, hne⟩
  case isFalse heq =>
    refine .inl ⟨rfl, h.reads.snoc hi hdvd c.failed, h.failed, fun j hj hdvd' ↦ ?_⟩
    obtain hlt | hle := lt_or_ge j i
    · exact h.words j hlt hdvd'
    · have hji : j = i := by omega
      rw [hji]
      exact not_not.mp heq

/-- The loop decides what `magicFailed` says. -/
theorem checkMagic_eq_some {receivedBytes : ℕ} (h : receivedBytes + 8 ≤ 2 ^ 31)
    (zone : ℕ → UInt8) (magic : ℕ) :
    ∃ c, checkMagic zone receivedBytes magic = some c ∧ ReadsWords receivedBytes c ∧
      c.failed = magicFailed (wordAt zone) receivedBytes magic := by
  have hstart : CheckedTo zone receivedBytes magic 0 {} :=
    ⟨by simp [ReadsWords], rfl, fun j hj ↦ absurd hj (Nat.not_lt_zero j)⟩
  obtain ⟨c, hrun, hfailed | ⟨i, hle, -, -, hall⟩⟩ :=
    IntLoop.run_rule (by decide) h hstart fun _ _ hi hdvd hI ↦ hI.turn hi hdvd
  · refine ⟨c, hrun, hfailed.reads, hfailed.failed.trans ?_⟩
    obtain ⟨j, hj, hdvd, hne⟩ := hfailed.word
    cases hmagic : magicFailed (wordAt zone) receivedBytes magic with
    | true => rfl
    | false => exact absurd (magicFailed_eq_false_iff.mp hmagic j hj hdvd) hne
  · refine ⟨c, hrun, hall.reads, hall.failed.trans (magicFailed_eq_false_iff.mpr ?_).symm⟩
    exact fun j hj ↦ hall.words j (hj.trans_le hle)

/-! ## Transferring -/

theorem copied_of_lt {x : ℕ} (h : x < totalBytes) :
    copied totalBytes zone serverZone x = zone x := by
  have hx : copied totalBytes zone serverZone (0 + x) = zone (0 + x) := Memory.write_read_of_lt h
  rwa [Nat.zero_add] at hx

theorem copied_of_le {x : ℕ} (h : totalBytes ≤ x) :
    copied totalBytes zone serverZone x = serverZone x :=
  Memory.write_of_le (by rwa [Memory.length_read, Nat.zero_add])

theorem wordAt_eq_magic_iff :
    wordAt zone i = magic.toNat ↔ ∀ j < 8, zone (i + j) = Memory.byte magic.toNat j :=
  Memory.value_read_eq_iff (toNat_magic_lt magic)

/-- What comes in whole words is found. -/
theorem verifies_of_dvd (hsize : totalBytes ≤ rdmaSize) (hserver : totalBytes ≤ serverSize)
    (hdvd : 8 ∣ totalBytes) (hlt : totalBytes + 8 ≤ 2 ^ 31) :
    Verifies totalBytes rdmaSize serverSize magic := by
  intro zone serverZone
  obtain ⟨f, n, hfill, hle, hn, hn8, hf⟩ := fillZone_eq_some hlt magic zone
  have hnt : n = totalBytes := by omega
  refine ⟨f, hfill, fun w hw ↦ ?_, ?_⟩
  · obtain ⟨j, hj, hj8, rfl⟩ := (hf.written w).mp hw
    dsimp only
    omega
  · obtain ⟨c, hcheck, hreads, hfailed⟩ := checkMagic_eq_some hlt
      (copied totalBytes f.zone serverZone) magic.toNat
    have hgood : magicFailed (wordAt (copied totalBytes f.zone serverZone)) totalBytes
        magic.toNat = false := by
      refine magicFailed_eq_false_iff.mpr fun j hj hj8 ↦ wordAt_eq_magic_iff.mpr fun k hk ↦ ?_
      have hmod : (j + k) % 8 = k := by omega
      rw [copied_of_lt (by omega), hf.zone (j + k) (by omega), hmod]
    refine ⟨c, hcheck, fun r hr ↦ ?_, hfailed.trans hgood, fun server payloadSize replyPort ↦ ?_⟩
    · obtain ⟨j, hj, hj8, rfl⟩ := hreads r hr
      dsimp only
      omega
    · simp only [axiomNetperfReply, ne_eq, not_true_eq_false, if_false, hgood,
        axiomNetperfSendReply]

/-- Behind a part of a word stands what was there before. -/
theorem dvd_of_verifies (h : Verifies totalBytes rdmaSize serverSize magic) : 8 ∣ totalBytes := by
  by_contra hdvd
  obtain ⟨f, hfill, -, c, hcheck, -, hgood, -⟩ := h (fun _ ↦ 0) fun x ↦
    Memory.byte magic.toNat (x % 8) + 1
  obtain ⟨c', hcheck', -, hfailed⟩ := checkMagic_eq_some (le_of_fillZone hfill)
    (copied totalBytes f.zone fun x ↦ Memory.byte magic.toNat (x % 8) + 1) magic.toNat
  rw [hcheck] at hcheck'
  cases hcheck'
  have hlast := magicFailed_eq_false_iff.mp (hfailed.symm.trans hgood) (8 * (totalBytes / 8))
    (by omega) (Nat.dvd_mul_right 8 _)
  have hbyte := wordAt_eq_magic_iff.mp hlast (totalBytes % 8) (Nat.mod_lt _ (by decide))
  rw [Nat.div_add_mod, copied_of_le le_rfl] at hbyte
  simp at hbyte

/-- An accepted length verifies exactly when it is in whole words and below the range of the
index. -/
theorem transfer_verifies_iff (lim : PayloadLimits)
    (payloadSize totalBytes rdmaSize serverSize size : ℕ) (magic : BitVec 64)
    (hinit : rdmaInit lim payloadSize totalBytes (some rdmaSize) = some size)
    (hserver : totalBytes ≤ serverSize) :
    Verifies totalBytes rdmaSize serverSize magic ↔ 8 ∣ totalBytes ∧ totalBytes ≤ 2 ^ 31 - 8 := by
  have hsize : totalBytes ≤ rdmaSize := by
    rw [rdmaInit, Option.bind_eq_some_iff] at hinit
    obtain ⟨p, -, hmap⟩ := hinit
    rw [Option.bind_some, Option.ite_none_left_eq_some] at hmap
    exact Nat.le_of_not_lt hmap.1
  constructor
  · intro h
    obtain ⟨f, hfill, -⟩ := h (fun _ ↦ 0) fun _ ↦ 0
    have hle := le_of_fillZone hfill
    exact ⟨dvd_of_verifies h, by omega⟩
  · rintro ⟨hdvd, hle⟩
    exact verifies_of_dvd hsize hserver hdvd (by omega)

/-- Limits of 64 bytes. -/
def smallLimits : PayloadLimits := ⟨64, 64, 64, 64, 64, 64⟩

theorem transfer_verifies_sixteen :
    rdmaInit smallLimits 8 16 (some 32) = some 8 ∧ Verifies 16 32 32 0x0123456789abcdef :=
  ⟨rfl, (transfer_verifies_iff smallLimits 8 16 32 32 8 0x0123456789abcdef rfl (by decide)).mpr
    ⟨by decide, by decide⟩⟩

/-- Four bytes are transferred as they should be; the server compares them together with the next
four of its zone and reports an error. -/
theorem fourBytes_reported :
    rdmaInit smallLimits 4 4 (some 32) = some 4 ∧
      ∃ f, fillZone 4 7 (fun _ ↦ 0) = some f ∧
        (checkMagic (copied 4 f.zone fun _ ↦ 1) 4 7).map Checked.failed = some true ∧
        (axiomNetperfReply ⟨4, 0, 1⟩ ⟨⟨.ended, 4, .rdma, 7, 1⟩, 128⟩
          (some (wordAt (copied 4 f.zone fun _ ↦ 1)))).2 = [⟨1, 4, true⟩] :=
  ⟨rfl, _, rfl, by decide, by decide⟩

end AxiomApps.Netperf
