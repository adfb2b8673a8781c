import AxiomApps.Spawn.Server

/-!
# Sessions held

Two tables know of a session: the mask of free sessions and the slots of the spawn requests.
A session leaves the mask when it is handed out and returns to it by an explicit release or
when its command is run; only the latter also frees its slot.
-/

namespace AxiomApps.Spawn

open EventSystem

variable {p : Platform} {s s' : State} {m : SpawnReq} {ses x : UInt8}
  {tr : List (State × Event)}

/-! ## The mask -/

def heldStep (p : Platform) (held : List UInt8) : State × Event → List UInt8
  | (s, .session ses) =>
      if ses ≠ p.sessionEmpty then held.erase ses
      else held ++ ((sessionReq p s ses).2.filter (· ≠ p.sessionEmpty)).toList
  | (s, .spawn m) => if (spawnReq p s m).2.isSome then held.erase m.session else held

/-- The sessions handed out and not released since, in the order they were handed out. -/
def held (p : Platform) (tr : List (State × Event)) : List UInt8 :=
  tr.foldl (heldStep p) []

theorem held_snoc (tr : List (State × Event)) (e : State × Event) :
    held p (tr ++ [e]) = heldStep p (held p tr) e := by
  simp [held]

/-- The list has no repetitions and names the sessions the mask has as used. -/
structure Lists (p : Platform) (l : List UInt8) (sessions : BitVec 32) : Prop where
  nodup : l.Nodup
  mem_iff : ∀ x, x ∈ l ↔ x < 32 ∧ used p sessions x = true

variable {l : List UInt8} {sessions sessions' : BitVec 32}

theorem Lists.release (h : Lists p l sessions) (hrel : release p sessions ses = some sessions') :
    Lists p (l.erase ses) sessions' := by
  refine ⟨h.nodup.erase ses, fun x ↦ ?_⟩
  rw [h.nodup.mem_erase_iff, h.mem_iff]
  constructor
  · rintro ⟨hne, hlt, hused⟩
    exact ⟨hlt, by simp [used_release hrel hlt, hused, hne]⟩
  · rintro ⟨hlt, hused⟩
    rw [used_release hrel hlt, Bool.and_eq_true, bne_iff_ne] at hused
    exact ⟨hused.2, hlt, hused.1⟩

theorem Lists.not_mem (h : Lists p l sessions) (hused : used p sessions ses = false) :
    ses ∉ l := by
  rw [h.mem_iff, hused]
  simp

theorem Lists.allocate (h : Lists p l sessions) :
    Lists p (l ++ ((some (nextSession p sessions).2).filter (· ≠ p.sessionEmpty)).toList)
      (nextSession p sessions).1 := by
  by_cases hzero : sessions = 0
  · have hnext : nextSession p sessions = (sessions, p.sessionEmpty) := by
      simp [nextSession, hzero]
    simpa [hnext, Option.filter] using h
  · obtain ⟨hlt, hfree, hused⟩ := nextSession_spec (p := p) hzero
    have hne := ne_sessionEmpty_of_lt (p := p) hlt
    have hnew : (some (nextSession p sessions).2).filter (· ≠ p.sessionEmpty) =
        some (nextSession p sessions).2 := by simp [hne]
    rw [hnew, Option.toList_some]
    refine ⟨List.nodup_append'.mpr ⟨h.nodup, List.nodup_singleton _, ?_⟩, fun x ↦ ?_⟩
    · exact List.disjoint_singleton.mpr (h.not_mem hfree)
    · rw [List.mem_append, List.mem_singleton, h.mem_iff]
      constructor
      · rintro (⟨hx, hux⟩ | rfl)
        · exact ⟨hx, by simp [hused x hx, hux]⟩
        · exact ⟨hlt, by simp [hused _ hlt]⟩
      · rintro ⟨hx, hux⟩
        rw [hused x hx, Bool.or_eq_true, beq_iff_eq] at hux
        exact hux.imp (⟨hx, ·⟩) id

theorem Lists.session (h : Lists p l s.sessions) (hs : (sessionReq p s ses).1 = some s') :
    Lists p (heldStep p l (s, .session ses)) s'.sessions := by
  by_cases hses : ses = p.sessionEmpty
  · subst hses
    simp only [sessionReq, ne_eq, not_true_eq_false, if_false, Option.some.injEq] at hs
    subst hs
    simpa [heldStep, sessionReq] using h.allocate
  · rw [heldStep, if_pos hses]
    rw [sessionReq, if_pos hses] at hs
    cases hused : used p s.sessions ses with
    | true =>
        rw [if_pos hused] at hs
        obtain ⟨sessions, hrel, rfl⟩ := Option.map_eq_some_iff.mp hs
        exact h.release hrel
    | false =>
        simp only [hused, Bool.false_eq_true, if_false, Option.some.injEq] at hs
        rw [List.erase_of_not_mem (h.not_mem hused), ← hs]
        exact h

theorem Lists.spawn (h : Lists p l s.sessions) (hs : (spawnReq p s m).1 = some s') :
    Lists p (heldStep p l (s, .spawn m)) s'.sessions := by
  rw [heldStep]
  rcases spawnReq_cases p s m with ⟨-, hreq⟩ | ⟨i, info, -, hreq⟩
  · rw [hreq] at hs ⊢
    cases hs
    exact h
  · cases hexec : m.exec with
    | true =>
        simp only [hexec, if_true] at hreq
        rw [hreq] at hs ⊢
        obtain ⟨sessions, hrel, rfl⟩ := Option.map_eq_some_iff.mp hs
        exact h.release hrel
    | false =>
        simp only [hexec, Bool.false_eq_true, if_false] at hreq
        rw [hreq] at hs ⊢
        cases hs
        exact h

theorem lists_of_exec (h : Exec (next p) (init p) tr s) : Lists p (held p tr) s.sessions := by
  induction h with
  | nil =>
      refine ⟨List.nodup_nil, fun x ↦ ?_⟩
      simp only [held, List.foldl_nil, List.not_mem_nil, false_iff, not_and]
      intro hx
      have hlt : x.toNat < 32 := hx
      rw [used_eq hx, init, BitVec.getLsbD_allOnes]
      simp [hlt]
  | @snoc tr s s' e _ hnext ih =>
      rw [held_snoc]
      cases e with
      | session ses => exact ih.session hnext
      | spawn m => exact ih.spawn hnext

theorem Lists.eq_zero_iff (h : Lists p l sessions) : sessions = 0 ↔ ∀ x < 32, x ∈ l := by
  constructor
  · rintro rfl x hx
    exact (h.mem_iff x).mpr ⟨hx, by simp [used_eq hx]⟩
  · intro hall
    refine BitVec.eq_of_getLsbD_eq fun i hi ↦ ?_
    have htoNat : (UInt8.ofNat i).toNat = i := UInt8.toNat_ofNat_of_lt' (hi.trans (by decide))
    have hlt : UInt8.ofNat i < 32 := UInt8.lt_iff_toNat_lt.mpr (htoNat.symm ▸ hi)
    have hused := ((h.mem_iff _).mp (hall _ hlt)).2
    rw [used_eq hlt, htoNat] at hused
    simpa using hused

/-- Whatever is requested and released, the sessions held are distinct and below 32, the mask
has exactly the others free, and a request is refused when all 32 are held and only then. -/
theorem sessions_exclusive (h : Exec (next p) (init p) tr s) :
    (held p tr).Nodup ∧ (∀ x ∈ held p tr, x < 32) ∧
    (∀ x < 32, s.sessions.getLsbD x.toNat = true ↔ x ∉ held p tr) ∧
    ((sessionReq p s p.sessionEmpty).2 = some p.sessionEmpty ↔ ∀ x < 32, x ∈ held p tr) := by
  have hl := lists_of_exec h
  refine ⟨hl.nodup, fun x hx ↦ ((hl.mem_iff x).mp hx).1, fun x hx ↦ ?_, ?_⟩
  · rw [hl.mem_iff, used_eq hx]
    simp [hx]
  · rw [← hl.eq_zero_iff]
    simp only [sessionReq, ne_eq, not_true_eq_false, if_false, Option.some.injEq]
    by_cases hzero : s.sessions = 0
    · simp [nextSession, hzero]
    · exact iff_of_false (ne_sessionEmpty_of_lt (nextSession_spec hzero).1) hzero

/-- Three sessions are handed out; the first is released, the second has its command run. -/
def threeSessions : List Event :=
  [.session 255, .session 255, .session 255, .session 0, .spawn ⟨true, true, .exe, 1, [65, 0]⟩]

theorem sessions_exclusive_three : ∃ tr s, Exec (next platform8) (init platform8) tr s ∧
    held platform8 tr = [2] ∧ s.sessions.getLsbD 0 = true ∧
    (sessionReq platform8 s 255).2 ≠ some 255 := by
  obtain ⟨tr, s, hexec, -, hheld⟩ : ∃ tr s, Exec (next platform8) (init platform8) tr s ∧
      Meets (fun _ _ ↦ True) tr ∧ held platform8 tr = [2] :=
    Exec.exists_of_run threeSessions (by decide +kernel)
  obtain ⟨-, -, hfree, hrefused⟩ := sessions_exclusive hexec
  rw [hheld] at hfree hrefused
  refine ⟨tr, s, hexec, hheld, (hfree 0 (by decide)).mpr (by decide), fun h ↦ ?_⟩
  exact absurd (hrefused.mp h 0 (by decide)) (by decide)

/-! ## The slots -/

/-- No release names a session that has a slot, and no spawn request names the id 32, which
the test of an id lets through although no session has it. -/
def Orderly (p : Platform) (s : State) : Event → Prop
  | .session ses => ∀ i, (s.slots i).session = ses → ses = p.sessionEmpty
  | .spawn m => m.session ≠ 32

instance (p : Platform) (s : State) (e : Event) : Decidable (Orderly p s e) :=
  match e with
  | .session ses => inferInstanceAs (Decidable (∀ i, (s.slots i).session = ses → _))
  | .spawn m => inferInstanceAs (Decidable (m.session ≠ 32))

/-- Every slot in use belongs to a session in use. -/
def Backed (p : Platform) (s : State) : Prop :=
  ∀ i, (s.slots i).session ≠ p.sessionEmpty →
    (s.slots i).session < 32 ∧ used p s.sessions (s.slots i).session = true

theorem lt_of_used (hused : used p sessions ses = true) (hne : ses ≠ 32) : ses < 32 := by
  have hle : ¬ 32 < ses := by
    intro hlt
    simp [used, hlt] at hused
  exact UInt8.lt_of_le_of_ne (UInt8.not_lt.mp hle) hne

theorem Backed.session (h : Backed p s) (hC : Orderly p s (.session ses))
    (hs : (sessionReq p s ses).1 = some s') : Backed p s' := by
  intro i
  rw [sessionReq_slots hs]
  intro hi
  obtain ⟨hlt, hused⟩ := h i hi
  refine ⟨hlt, ?_⟩
  rw [sessionReq] at hs
  split_ifs at hs with hses hfree
  · obtain ⟨sessions, hrel, rfl⟩ := Option.map_eq_some_iff.mp hs
    have hne : (s.slots i).session ≠ ses := fun heq ↦ hses (hC i heq)
    simp [used_release hrel hlt, hused, hne]
  · cases hs
    exact hused
  · cases hs
    by_cases hzero : s.sessions = 0
    · simpa [nextSession, hzero] using hused
    · simp [(nextSession_spec (p := p) hzero).2.2 _ hlt, hused]

theorem Backed.spawn (h : Backed p s) (hd : Distinct p s) (hC : m.session ≠ 32)
    (hs : (spawnReq p s m).1 = some s') : Backed p s' := by
  rcases spawnReq_state hs with ⟨-, rfl⟩ | ⟨i, info, hp, ⟨sessions, hrel, rfl⟩ | rfl⟩
  · exact h
  · intro j hj
    rcases eq_or_ne j i with rfl | hne
    · simp at hj
    · simp only [Function.update_of_ne hne] at hj ⊢
      obtain ⟨hlt, hused⟩ := h j hj
      refine ⟨hlt, ?_⟩
      simp [used_release hrel hlt, hused, hp.others hd hne]
  · intro j hj
    rcases eq_or_ne j i with rfl | hne
    · simpa using ⟨lt_of_used hp.used hC, hp.used⟩
    · simp only [Function.update_of_ne hne] at hj ⊢
      exact h j hj

theorem backed_of_exec (h : Exec (next p) (init p) tr s) (hC : Meets (Orderly p) tr) :
    Distinct p s ∧ Backed p s := by
  refine Exec.invariant (I := fun s ↦ Distinct p s ∧ Backed p s)
    ⟨fun _ _ _ hne ↦ absurd rfl hne, fun _ hne ↦ absurd rfl hne⟩ (fun s e s' hI he hnext ↦ ?_) h hC
  cases e with
  | session ses => exact ⟨hI.1.session hnext, hI.2.session he hnext⟩
  | spawn m => exact ⟨hI.1.spawn hnext, hI.2.spawn hI.1 he hnext⟩

/-- In every run in which no release names a session with a slot, every slot in use belongs to
a session in use, and a request of a session in use is refused for lack of a slot only if four
other sessions in use have one each. -/
theorem slots_follow_sessions (h : Exec (next p) (init p) tr s) (hC : Meets (Orderly p) tr) :
    (∀ i, (s.slots i).session ≠ p.sessionEmpty →
      used p s.sessions (s.slots i).session = true) ∧
    ∀ ses, used p s.sessions ses = true → ¬ Available p s ses →
      (Function.Injective fun i ↦ (s.slots i).session) ∧
      ∀ i, (s.slots i).session ≠ ses ∧ used p s.sessions (s.slots i).session = true := by
  obtain ⟨hd, hb⟩ := backed_of_exec h hC
  refine ⟨fun i hi ↦ (hb i hi).2, fun ses _ hfull ↦ ?_⟩
  have hslot : ∀ i, (s.slots i).session ≠ ses ∧ (s.slots i).session ≠ p.sessionEmpty :=
    fun i ↦ ⟨fun hi ↦ hfull ⟨i, .inl hi⟩, fun hi ↦ hfull ⟨i, .inr hi⟩⟩
  exact ⟨fun i j hij ↦ hd i j hij (hslot i).2, fun i ↦ ⟨(hslot i).1, (hb i (hslot i).2).2⟩⟩

/-- Five sessions, of which four begin a spawn. -/
def fourSpawns : List Event :=
  List.replicate 5 (.session 255) ++
    [.spawn ⟨true, false, .exe, 0, [65, 0]⟩, .spawn ⟨true, false, .exe, 1, [65, 0]⟩,
      .spawn ⟨true, false, .exe, 2, [65, 0]⟩, .spawn ⟨true, false, .exe, 3, [65, 0]⟩]

theorem slots_follow_sessions_four : ∃ tr s, Exec (next platform8) (init platform8) tr s ∧
    Meets (Orderly platform8) tr ∧ used platform8 s.sessions 4 = true ∧
    ¬ Available platform8 s 4 ∧
    ∀ i, (s.slots i).session ≠ 4 ∧ used platform8 s.sessions (s.slots i).session = true := by
  obtain ⟨tr, s, hexec, hC, hused, hfull⟩ : ∃ tr s, Exec (next platform8) (init platform8) tr s ∧
      Meets (Orderly platform8) tr ∧ used platform8 s.sessions 4 = true ∧
      ¬ Available platform8 s 4 :=
    Exec.exists_of_run fourSpawns (by decide +kernel)
  exact ⟨tr, s, hexec, hC, hused, hfull, ((slots_follow_sessions hexec hC).2 4 hused hfull).2⟩

/-- The four sessions are released in the middle of their spawns: no slot belongs to a session
in use, and yet the fifth session is refused. -/
theorem releasedSpawns_refuse : ∃ tr s, Exec (next platform8) (init platform8) tr s ∧
    (∀ i, (s.slots i).session ≠ platform8.sessionEmpty ∧
      used platform8 s.sessions (s.slots i).session = false) ∧
    used platform8 s.sessions 4 = true ∧ ¬ Available platform8 s 4 := by
  obtain ⟨tr, s, hexec, -, h⟩ : ∃ tr s, Exec (next platform8) (init platform8) tr s ∧
      Meets (fun _ _ ↦ True) tr ∧ (∀ i, (s.slots i).session ≠ platform8.sessionEmpty ∧
        used platform8 s.sessions (s.slots i).session = false) ∧
      used platform8 s.sessions 4 = true ∧ ¬ Available platform8 s 4 :=
    Exec.exists_of_run (fourSpawns ++ [.session 0, .session 1, .session 2, .session 3])
      (by decide +kernel)
  exact ⟨tr, s, hexec, h⟩

end AxiomApps.Spawn
