import Mathlib.Data.BitVec
import Mathlib.Tactic

/-!
# Sessions of axiom-init

A session is a bit of a 32-bit mask, set while the session is free. Session ids are 8-bit
numbers; the NIC headers give one of them as the id of no session.
-/

namespace AxiomApps.Spawn

/-- What the headers and the machine give. The test of an id lets 32 through to a shift by
32, whose value C leaves open. -/
structure Platform where
  dataSize : ℕ
  sessionEmpty : UInt8
  shift32 : BitVec 32
  lt_sessionEmpty : 32 < sessionEmpty

/-- `1 << ses` for the ids that are shifted by. -/
def bit (p : Platform) (ses : UInt8) : BitVec 32 :=
  if ses < 32 then 1#32 <<< ses.toNat else p.shift32

def ctz (sessions : BitVec 32) : ℕ := ((List.range 32).find? fun i ↦ sessions.getLsbD i).getD 0

/-- `next`: the mask afterwards and the session taken. -/
def nextSession (p : Platform) (sessions : BitVec 32) : BitVec 32 × UInt8 :=
  if sessions ≠ 0 then
    let ses := UInt8.ofNat (ctz sessions)
    (sessions &&& ~~~(bit p ses), ses)
  else (sessions, p.sessionEmpty)

/-- `release`, which asserts that the id is below 32. -/
def release (p : Platform) (sessions : BitVec 32) (ses : UInt8) : Option (BitVec 32) :=
  if ses < 32 then some (sessions ||| bit p ses) else none

def used (p : Platform) (sessions : BitVec 32) (ses : UInt8) : Bool :=
  if 32 < ses then false else sessions &&& bit p ses == 0

variable {p : Platform} {sessions sessions' : BitVec 32} {ses x : UInt8}

theorem bit_of_lt (h : ses < 32) : bit p ses = .twoPow 32 ses.toNat := by
  rw [bit, if_pos h, BitVec.twoPow_eq]

theorem getLsbD_bit (h : ses < 32) : (bit p ses).getLsbD x.toNat = decide (x = ses) := by
  have hlt : ses.toNat < 32 := h
  rw [bit_of_lt h, BitVec.getLsbD_twoPow]
  simp [hlt, UInt8.toNat_inj, eq_comm]

theorem used_eq (h : ses < 32) : used p sessions ses = !sessions.getLsbD ses.toNat := by
  have hle : ¬ 32 < ses := fun hgt ↦ absurd (UInt8.lt_trans h hgt) (UInt8.lt_irrefl _)
  have hne : bit p ses ≠ 0#32 := by
    intro hzero
    have hself := getLsbD_bit (p := p) (x := ses) h
    simp [hzero] at hself
  rw [bit_of_lt h] at hne
  rw [used, if_neg hle, bit_of_lt h, BitVec.and_twoPow]
  cases sessions.getLsbD ses.toNat with
  | false => simp
  | true => simp [hne]

theorem ne_sessionEmpty_of_used (h : used p sessions ses = true) : ses ≠ p.sessionEmpty := by
  rintro rfl
  simp [used, p.lt_sessionEmpty] at h

theorem ne_sessionEmpty_of_lt (h : ses < 32) : ses ≠ p.sessionEmpty := by
  rintro rfl
  exact absurd (UInt8.lt_trans h p.lt_sessionEmpty) (UInt8.lt_irrefl _)

theorem used_release (hrel : release p sessions ses = some sessions') (hx : x < 32) :
    used p sessions' x = (used p sessions x && x != ses) := by
  rw [release, Option.ite_none_right_eq_some] at hrel
  obtain ⟨hses, hrel⟩ := hrel
  obtain rfl := Option.some.inj hrel
  rw [used_eq hx, used_eq hx, BitVec.getLsbD_or, getLsbD_bit hses, Bool.not_or]
  rfl

theorem ctz_spec (h : sessions ≠ 0) :
    ctz sessions < 32 ∧ sessions.getLsbD (ctz sessions) = true := by
  obtain ⟨i, hi, hbit⟩ : ∃ i < 32, sessions.getLsbD i = true := by
    by_contra! hall
    refine h (BitVec.eq_of_getLsbD_eq fun i hi ↦ ?_)
    simpa using hall i hi
  rw [ctz]
  cases hfind : (List.range 32).find? fun i ↦ sessions.getLsbD i with
  | none => exact absurd hbit (by simpa using List.find?_eq_none.mp hfind i (List.mem_range.mpr hi))
  | some j =>
      exact ⟨List.mem_range.mp (List.mem_of_find?_eq_some hfind), List.find?_some hfind⟩

/-- The session taken was free and is in use afterwards; the others stay as they are. -/
theorem nextSession_spec (h : sessions ≠ 0) :
    (nextSession p sessions).2 < 32 ∧ used p sessions (nextSession p sessions).2 = false ∧
      ∀ x < 32, used p (nextSession p sessions).1 x =
        (used p sessions x || x == (nextSession p sessions).2) := by
  obtain ⟨hlt, hbit⟩ := ctz_spec h
  obtain ⟨ses, hses⟩ : ∃ ses, ses = UInt8.ofNat (ctz sessions) := ⟨_, rfl⟩
  have htoNat : ses.toNat = ctz sessions := by
    rw [hses]
    exact UInt8.toNat_ofNat_of_lt' (hlt.trans (by decide))
  have hses_lt : ses < 32 := UInt8.lt_iff_toNat_lt.mpr (htoNat ▸ hlt)
  rw [nextSession, if_pos h]
  simp only [← hses]
  refine ⟨hses_lt, by rw [used_eq hses_lt, htoNat, hbit]; rfl, fun x hx ↦ ?_⟩
  have hx' : x.toNat < 32 := hx
  rw [used_eq hx, used_eq hx, BitVec.getLsbD_and, BitVec.getLsbD_not, getLsbD_bit hses_lt]
  simp [hx', beq_eq_decide]

end AxiomApps.Spawn
