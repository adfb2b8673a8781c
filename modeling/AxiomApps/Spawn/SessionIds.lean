import AxiomApps.Spawn.Server

/-!
# Session ids in messages

Session and spawn requests carry an 8-bit session id that axiom-init does not check. Whether it
is that of a session in use is decided by `used`, which lets 32 through to a shift by 32; what
`used` accepts is released, and `release` asserts that the id is below 32.
-/

namespace AxiomApps.Spawn

open EventSystem

/-- The session id of a message. -/
def Event.id : Event → UInt8
  | .session ses => ses
  | .spawn m => m.session

/-- The ids `release` is called with when a message is handled. -/
def releases (p : Platform) (s : State) : Event → List UInt8
  | .session ses => if ses ≠ p.sessionEmpty ∧ used p s.sessions ses then [ses] else []
  | .spawn m =>
      if used p s.sessions m.session ∧ (findSlot p s.slots m.session).isSome ∧ m.exec then
        [m.session]
      else []

/-- The shifts `used` evaluates. -/
def usedShifts (ses : UInt8) : List UInt8 := if 32 < ses then [] else [ses]

/-- The shifts `next` evaluates. -/
def nextShifts (sessions : BitVec 32) : List UInt8 :=
  if sessions ≠ 0 then [UInt8.ofNat (ctz sessions)] else []

/-- The shifts evaluated when a message is handled; that of `release` comes after its
assertion. -/
def shifts (p : Platform) (s : State) : Event → List UInt8
  | .session ses =>
      if ses ≠ p.sessionEmpty then
        usedShifts ses ++ (releases p s (.session ses)).filter (· < 32)
      else nextShifts s.sessions
  | .spawn m => usedShifts m.session ++ (releases p s (.spawn m)).filter (· < 32)

/-- Only ids below 32 are released, shifted by or taken for a session in use. -/
structure Safe (p : Platform) (s : State) (e : Event) : Prop where
  releases : ∀ ses ∈ releases p s e, ses < 32
  shifts : ∀ n ∈ shifts p s e, n < 32
  used : ¬ e.id < 32 → used p s.sessions e.id = false

/-- The messages are handled one after the other, up to one that trips the assertion. -/
def SafeRun (p : Platform) : State → List Event → Prop
  | _, [] => True
  | s, e :: es => Safe p s e ∧ ∀ s', next p s e = some s' → SafeRun p s' es

variable {p : Platform} {s : State} {e : Event} {ses : UInt8}

theorem lt_or_lt_of_ne (h : ses ≠ 32) : ses < 32 ∨ 32 < ses := by
  have hne : ses.toNat ≠ 32 := fun heq ↦ h (UInt8.toNat_inj.mp heq)
  rcases Nat.lt_or_gt_of_ne hne with hlt | hgt
  · exact .inl hlt
  · exact .inr hgt

theorem used_of_not_lt (h : ses ≠ 32) (hlt : ¬ ses < 32) (sessions : BitVec 32) :
    used p sessions ses = false := by
  rw [used, if_pos ((lt_or_lt_of_ne h).resolve_left hlt)]

theorem release_eq_none_iff (sessions : BitVec 32) :
    release p sessions ses = none ↔ ¬ ses < 32 := by
  simp [release]

/-! ## One message -/

theorem used_of_mem_releases (h : ses ∈ releases p s e) :
    ses = e.id ∧ used p s.sessions e.id = true := by
  cases e with
  | session x =>
      simp only [releases] at h
      split_ifs at h with hrel
      · exact ⟨List.mem_singleton.mp h, hrel.2⟩
      · cases h
  | spawn m =>
      simp only [releases] at h
      split_ifs at h with hrel
      · exact ⟨List.mem_singleton.mp h, hrel.1⟩
      · cases h

/-- axiom-init does not survive a message for which `release` is called with an id that is not
below 32. -/
theorem next_eq_none_iff : next p s e = none ↔ ∃ ses ∈ releases p s e, ¬ ses < 32 := by
  cases e with
  | session ses =>
      simp only [next, sessionReq, releases]
      by_cases hempty : ses ≠ p.sessionEmpty
      · cases hused : used p s.sessions ses with
        | false => simp [hempty]
        | true => simp [hempty, release_eq_none_iff]
      · simp [hempty]
  | spawn m =>
      simp only [next, spawnReq, releases]
      cases hused : used p s.sessions m.session with
      | false => simp
      | true =>
          cases hfind : findSlot p s.slots m.session with
          | none => simp
          | some r => cases m.exec <;> simp [release_eq_none_iff]

/-- The test of an id is made for all messages but requests of a session. -/
theorem usedShifts_subset (h : e.id ≠ p.sessionEmpty) : usedShifts e.id ⊆ shifts p s e := by
  cases e with
  | session ses =>
      have hne : ses ≠ p.sessionEmpty := h
      rw [shifts, if_pos hne]
      exact List.subset_append_left ..
  | spawn m => exact List.subset_append_left ..

theorem lt_of_mem_usedShifts (h : ses ≠ 32) {n : UInt8} (hn : n ∈ usedShifts ses) : n < 32 := by
  rw [usedShifts] at hn
  split_ifs at hn with hgt
  · cases hn
  · rw [List.mem_singleton.mp hn]
    exact (lt_or_lt_of_ne h).resolve_right hgt

theorem lt_of_mem_nextShifts {sessions : BitVec 32} {n : UInt8} (hn : n ∈ nextShifts sessions) :
    n < 32 := by
  rw [nextShifts] at hn
  split_ifs at hn with hne
  · obtain ⟨hlt, -⟩ := ctz_spec hne
    rw [List.mem_singleton.mp hn, UInt8.lt_iff_toNat_lt,
      UInt8.toNat_ofNat_of_lt' (hlt.trans (by decide))]
    exact hlt
  · cases hn

theorem lt_of_mem_shifts (h : e.id ≠ 32) {n : UInt8} (hn : n ∈ shifts p s e) : n < 32 := by
  have hsplit : ∀ {l : List UInt8}, n ∈ usedShifts e.id ++ l.filter (· < 32) → n < 32 := by
    intro l hmem
    rcases List.mem_append.mp hmem with hused | hrel
    · exact lt_of_mem_usedShifts h hused
    · exact of_decide_eq_true (List.mem_filter.mp hrel).2
  cases e with
  | session ses =>
      rw [shifts] at hn
      split_ifs at hn
      · exact hsplit hn
      · exact lt_of_mem_nextShifts hn
  | spawn m => exact hsplit hn

/-- 32 is the one id that does harm, and it does in every state: it is shifted by. -/
theorem safe_iff : Safe p s e ↔ e.id ≠ 32 := by
  constructor
  · intro hsafe hid
    have hempty : e.id ≠ p.sessionEmpty := by
      rw [hid]
      exact UInt8.ne_of_lt p.lt_sessionEmpty
    have hmem : (32 : UInt8) ∈ shifts p s e := usedShifts_subset hempty (by simp [hid, usedShifts])
    exact absurd (hsafe.shifts 32 hmem) (UInt8.lt_irrefl 32)
  · intro hid
    refine ⟨fun ses hses ↦ ?_, fun n hn ↦ lt_of_mem_shifts hid hn,
      fun hlt ↦ used_of_not_lt hid hlt _⟩
    obtain ⟨rfl, hused⟩ := used_of_mem_releases hses
    by_contra hlt
    simp [used_of_not_lt hid hlt] at hused

/-! ## Sequences of messages -/

theorem Safe.exists_next (h : Safe p s e) : ∃ s', next p s e = some s' := by
  refine Option.ne_none_iff_exists'.mp fun hnone ↦ ?_
  obtain ⟨ses, hses, hlt⟩ := next_eq_none_iff.mp hnone
  exact hlt (h.releases ses hses)

/-- From any state, a sequence of session and spawn requests releases, shifts by and takes for
sessions in use only ids below 32, if and only if no message carries the id 32. -/
theorem safeRun_iff (p : Platform) (s : State) (es : List Event) :
    SafeRun p s es ↔ ∀ e ∈ es, e.id ≠ 32 := by
  induction es generalizing s with
  | nil => simp [SafeRun]
  | cons e es ih =>
      rw [SafeRun, List.forall_mem_cons, safe_iff]
      constructor
      · rintro ⟨hid, hrest⟩
        obtain ⟨s', hs'⟩ := (safe_iff.mpr hid).exists_next
        exact ⟨hid, (ih s').mp (hrest s' hs')⟩
      · rintro ⟨hid, hrest⟩
        exact ⟨hid, fun s' _ ↦ (ih s').mpr hrest⟩

/-- Session 0 is handed out, on a machine that shifts by the count modulo 32. A release of
session 32 then passes the test for session 0 and trips the assertion, and so does a spawn
request that has its command run. -/
theorem session32_trips_assertion : ∃ s, next platform8 (init platform8) (.session 255) = some s ∧
    used platform8 s.sessions 32 = true ∧ releases platform8 s (.session 32) = [32] ∧
    next platform8 s (.session 32) = none ∧
    next platform8 s (.spawn ⟨true, true, .exe, 32, [65, 0]⟩) = none := by
  refine ⟨{ init platform8 with sessions := BitVec.allOnes 32 &&& ~~~1#32 }, ?_, ?_, ?_, ?_, ?_⟩
    <;> decide +kernel

end AxiomApps.Spawn
