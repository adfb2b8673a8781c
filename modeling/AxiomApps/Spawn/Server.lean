import AxiomApps.Lib.CString
import AxiomApps.Lib.Execution
import AxiomApps.Spawn.Session

/-!
# Spawn requests at axiom-init

axiom-init puts the command of a session together in one of four slots. A message finds the
slot of its session, or takes a free one; it may reset the slot, stores its string there and
may have the command run, which frees the slot and the session.
-/

namespace AxiomApps.Spawn

open EventSystem

/-- `AXIOM_SPAWN_TYPE_EXE` and so on. -/
inductive SpawnType
  | exe
  | cwd
  | arg
  | env
  | other (type : UInt8)
  deriving DecidableEq

/-- `axiom_spawn_req_payload_t`, with its flags `AXIOM_SPAWN_FLAG_RESET` and
`AXIOM_SPAWN_FLAG_EXEC`. The array `data` holds the bytes received and, after them, whatever
was in the buffer. -/
structure SpawnReq where
  reset : Bool
  exec : Bool
  type : SpawnType
  session : UInt8
  data : List UInt8
  deriving DecidableEq

/-- What `info_t` holds beside the session. -/
@[ext] structure Info where
  exec : Option CString := none
  cwd : Option CString := none
  args : List (Option CString) := []
  env : List (Option CString) := []
  deriving DecidableEq

structure Slot where
  session : UInt8
  info : Info
  deriving DecidableEq

abbrev maxConcurrentSpawns : ℕ := 4

structure State where
  sessions : BitVec 32
  slots : Fin maxConcurrentSpawns → Slot
  deriving DecidableEq

/-- The arguments of a call of `daemonize`. -/
structure Daemonize where
  cwd : Option CString
  exec : Option CString
  args : List (Option CString)
  env : List (Option CString)
  deriving DecidableEq

def init (p : Platform) : State where
  sessions := BitVec.allOnes 32
  slots := fun _ ↦ ⟨p.sessionEmpty, {}⟩

/-- The search through the slots `l`, which stops at the session's own; `free` is the last
free slot seen before. -/
def search (p : Platform) (slots : Fin maxConcurrentSpawns → Slot) (ses : UInt8) :
    List (Fin maxConcurrentSpawns) → Option (Fin maxConcurrentSpawns) →
      Option (Fin maxConcurrentSpawns) × Option (Fin maxConcurrentSpawns)
  | [], free => (none, free)
  | i :: l, free =>
      let free := if (slots i).session = p.sessionEmpty then some i else free
      if (slots i).session = ses then (some i, free) else search p slots ses l free

/-- The slot for a message, and whether it has just been allocated. -/
def findSlot (p : Platform) (slots : Fin maxConcurrentSpawns → Slot) (ses : UInt8) :
    Option (Fin maxConcurrentSpawns × Bool) :=
  match search p slots ses (List.finRange _) none with
  | (some i, _) => some (i, false)
  | (none, some i) => some (i, true)
  | (none, none) => none

/-- The string of a message; its last byte is made a NUL first. -/
def SpawnReq.str (p : Platform) (m : SpawnReq) : CString :=
  .ofArray (m.data.set (p.dataSize - 1) 0)

/-- Storing the string of a message; `sl_append` adds at the end of a list. -/
def Info.store (p : Platform) (info : Info) (m : SpawnReq) : Info :=
  match m.type with
  | .exe => { info with exec := some (m.str p) }
  | .cwd => { info with cwd := some (m.str p) }
  | .arg => { info with args := info.args ++ [some (m.str p)] }
  | .env => { info with env := info.env ++ [some (m.str p)] }
  | .other _ => info

/-- The call made for a slot: both lists are ended by a `NULL`. -/
def Info.daemonize (info : Info) : Daemonize :=
  ⟨info.cwd, info.exec, info.args ++ [none], info.env ++ [none]⟩

/-- `axiom_spawn_req`: the state afterwards, none if the assertion of `release` fails, and
the call of `daemonize`. -/
def spawnReq (p : Platform) (s : State) (m : SpawnReq) : Option State × Option Daemonize :=
  if used p s.sessions m.session then
    match findSlot p s.slots m.session with
    | none => (some s, none)
    | some (idx, fresh) =>
        let info := if m.reset || fresh then {} else (s.slots idx).info
        let info := info.store p m
        if m.exec then
          ((release p s.sessions m.session).map fun sessions ↦
            ⟨sessions, Function.update s.slots idx ⟨p.sessionEmpty, {}⟩⟩, some info.daemonize)
        else (some { s with slots := Function.update s.slots idx ⟨m.session, info⟩ }, none)
  else (some s, none)

/-- `axiom_session`: the state afterwards, if there is one, and the session it replies
with. -/
def sessionReq (p : Platform) (s : State) (ses : UInt8) : Option State × Option UInt8 :=
  if ses ≠ p.sessionEmpty then
    if used p s.sessions ses then
      ((release p s.sessions ses).map fun sessions ↦ { s with sessions := sessions }, none)
    else (some s, none)
  else
    let r := nextSession p s.sessions
    (some { s with sessions := r.1 }, some r.2)

inductive Event
  | session (ses : UInt8)
  | spawn (m : SpawnReq)
  deriving DecidableEq

def next (p : Platform) (s : State) : Event → Option State
  | .session ses => (sessionReq p s ses).1
  | .spawn m => (spawnReq p s m).1

/-! ## The slots -/

/-- No two slots in use carry the same session. -/
def Distinct (p : Platform) (s : State) : Prop :=
  ∀ i j, (s.slots i).session = (s.slots j).session → (s.slots i).session ≠ p.sessionEmpty → i = j

/-- A message of the session would find a slot. -/
def Available (p : Platform) (s : State) (ses : UInt8) : Prop :=
  ∃ i, (s.slots i).session = ses ∨ (s.slots i).session = p.sessionEmpty

instance {p : Platform} {s : State} {ses : UInt8} : Decidable (Available p s ses) :=
  inferInstanceAs (Decidable (∃ _, _))

variable {p : Platform} {s s' : State} {m : SpawnReq} {ses : UInt8}

theorem search_spec (p : Platform) (slots : Fin maxConcurrentSpawns → Slot) (ses : UInt8)
    (l : List (Fin maxConcurrentSpawns)) (free : Option (Fin maxConcurrentSpawns)) :
    (∃ i f, search p slots ses l free = (some i, f) ∧ (slots i).session = ses) ∨
    (∃ f, search p slots ses l free = (none, f) ∧ (∀ i ∈ l, (slots i).session ≠ ses) ∧
      (f = free ∧ (∀ i ∈ l, (slots i).session ≠ p.sessionEmpty) ∨
        ∃ i, f = some i ∧ (slots i).session = p.sessionEmpty)) := by
  induction l generalizing free with
  | nil => exact .inr ⟨free, rfl, by simp, .inl ⟨rfl, by simp⟩⟩
  | cons i l ih =>
      by_cases hses : (slots i).session = ses
      · exact .inl ⟨i, _, by rw [search, if_pos hses], hses⟩
      · simp only [search, if_neg hses, List.forall_mem_cons]
        rcases ih (if (slots i).session = p.sessionEmpty then some i else free) with
          hfound | ⟨f, hf, hl, hfree⟩
        · exact .inl hfound
        · refine .inr ⟨f, hf, ⟨hses, hl⟩, ?_⟩
          rcases hfree with ⟨rfl, hl⟩ | hfree
          · split_ifs with hempty
            · exact .inr ⟨i, rfl, hempty⟩
            · exact .inl ⟨rfl, hempty, hl⟩
          · exact .inr hfree

theorem findSlot_spec (slots : Fin maxConcurrentSpawns → Slot) (ses : UInt8) :
    (findSlot p slots ses = none ∧
      ∀ i, (slots i).session ≠ ses ∧ (slots i).session ≠ p.sessionEmpty) ∨
    (∃ i, findSlot p slots ses = some (i, false) ∧ (slots i).session = ses) ∨
    (∃ i, findSlot p slots ses = some (i, true) ∧ (slots i).session = p.sessionEmpty ∧
      ∀ j, (slots j).session ≠ ses) := by
  rcases search_spec p slots ses (List.finRange _) none with
    ⟨i, f, hf, hi⟩ | ⟨f, hf, hses, hfree⟩
  · exact .inr (.inl ⟨i, by simp [findSlot, hf], hi⟩)
  · rcases hfree with ⟨rfl, hempty⟩ | ⟨i, rfl, hi⟩
    · exact .inl ⟨by simp [findSlot, hf], fun i ↦
        ⟨hses i (List.mem_finRange i), hempty i (List.mem_finRange i)⟩⟩
    · exact .inr (.inr ⟨i, by simp [findSlot, hf], hi, fun j ↦ hses j (List.mem_finRange j)⟩)

/-- The message goes to slot `i`, which then holds `info`: the slot was its own, or a free
one if it had none. -/
structure Placed (p : Platform) (s : State) (m : SpawnReq) (i : Fin maxConcurrentSpawns)
    (info : Info) : Prop where
  used : used p s.sessions m.session = true
  slot : (s.slots i).session = m.session ∧
      info = (if m.reset then {} else (s.slots i).info).store p m ∨
    (s.slots i).session = p.sessionEmpty ∧ (∀ j, (s.slots j).session ≠ m.session) ∧
      info = Info.store p {} m

/-- Everything a spawn request can do. -/
theorem spawnReq_cases (p : Platform) (s : State) (m : SpawnReq) :
    (¬ (used p s.sessions m.session = true ∧ Available p s m.session) ∧
      spawnReq p s m = (some s, none)) ∨
    ∃ i info, Placed p s m i info ∧ spawnReq p s m =
      if m.exec then
        ((release p s.sessions m.session).map fun sessions ↦
          ⟨sessions, Function.update s.slots i ⟨p.sessionEmpty, {}⟩⟩, some info.daemonize)
      else (some { s with slots := Function.update s.slots i ⟨m.session, info⟩ }, none) := by
  cases hused : used p s.sessions m.session with
  | false => exact .inl ⟨by simp, by simp [spawnReq, hused]⟩
  | true =>
      rcases findSlot_spec (p := p) s.slots m.session with
        ⟨hfind, hnone⟩ | ⟨i, hfind, hi⟩ | ⟨i, hfind, hi, hnone⟩
      · refine .inl ⟨?_, by simp [spawnReq, hused, hfind]⟩
        rintro ⟨-, i, hi⟩
        exact hi.elim (hnone i).1 (hnone i).2
      · refine .inr ⟨i, _, ⟨hused, .inl ⟨hi, rfl⟩⟩, ?_⟩
        simp [spawnReq, hused, hfind]
      · refine .inr ⟨i, _, ⟨hused, .inr ⟨hi, hnone, rfl⟩⟩, ?_⟩
        simp [spawnReq, hused, hfind]

theorem spawnReq_state (hs : (spawnReq p s m).1 = some s') :
    (¬ (used p s.sessions m.session = true ∧ Available p s m.session) ∧ s' = s) ∨
    ∃ i info, Placed p s m i info ∧
      ((∃ sessions, release p s.sessions m.session = some sessions ∧
        s' = ⟨sessions, Function.update s.slots i ⟨p.sessionEmpty, {}⟩⟩) ∨
      s' = { s with slots := Function.update s.slots i ⟨m.session, info⟩ }) := by
  rcases spawnReq_cases p s m with ⟨hrefused, hreq⟩ | ⟨i, info, hp, hreq⟩
  · rw [hreq] at hs
    exact .inl ⟨hrefused, (Option.some.inj hs).symm⟩
  · refine .inr ⟨i, info, hp, ?_⟩
    rw [hreq] at hs
    split_ifs at hs
    · obtain ⟨sessions, hrel, rfl⟩ := Option.map_eq_some_iff.mp hs
      exact .inl ⟨sessions, hrel, rfl⟩
    · exact .inr (Option.some.inj hs).symm

variable {i : Fin maxConcurrentSpawns} {info : Info}

theorem Placed.available (h : Placed p s m i info) : Available p s m.session :=
  ⟨i, h.slot.imp And.left And.left⟩

theorem Placed.others (h : Placed p s m i info) (hd : Distinct p s) {j : Fin maxConcurrentSpawns}
    (hj : j ≠ i) : (s.slots j).session ≠ m.session := by
  rcases h.slot with ⟨hi, -⟩ | ⟨-, hnone, -⟩
  · intro hjm
    refine hj (hd j i (hjm.trans hi.symm) ?_)
    rw [hjm]
    exact ne_sessionEmpty_of_used h.used
  · exact hnone j

theorem Distinct.update (hd : Distinct p s) (sessions : BitVec 32) {slot : Slot}
    (h : ∀ j ≠ i, (s.slots j).session ≠ slot.session ∨ slot.session = p.sessionEmpty) :
    Distinct p ⟨sessions, Function.update s.slots i slot⟩ := by
  intro j k hjk hne
  by_cases hj : j = i <;> by_cases hk : k = i
  · exact hj.trans hk.symm
  · subst hj
    simp only [Function.update_self, Function.update_of_ne hk] at hjk hne
    exact (h k hk).elim (fun hk ↦ absurd hjk.symm hk) fun he ↦ absurd he hne
  · subst hk
    simp only [Function.update_self, Function.update_of_ne hj] at hjk hne
    exact (h j hj).elim (fun hj ↦ absurd hjk hj) fun he ↦ absurd (hjk.trans he) hne
  · simp only [Function.update_of_ne hj, Function.update_of_ne hk] at hjk hne
    exact hd j k hjk hne

theorem sessionReq_slots (h : (sessionReq p s ses).1 = some s') : s'.slots = s.slots := by
  rw [sessionReq] at h
  split_ifs at h
  · obtain ⟨sessions, -, rfl⟩ := Option.map_eq_some_iff.mp h
    rfl
  · cases h
    rfl
  · cases h
    rfl

theorem Distinct.spawn (hd : Distinct p s) (hs : (spawnReq p s m).1 = some s') :
    Distinct p s' := by
  rcases spawnReq_state hs with ⟨-, rfl⟩ | ⟨i, info, hp, ⟨sessions, -, rfl⟩ | rfl⟩
  · exact hd
  · exact hd.update _ fun _ _ ↦ .inr rfl
  · exact hd.update _ fun j hj ↦ .inl (hp.others hd hj)

theorem Distinct.session (hd : Distinct p s) (hs : (sessionReq p s ses).1 = some s') :
    Distinct p s' := by
  intro i j
  simpa only [sessionReq_slots hs] using hd i j

theorem used_of_spawnReq (hs : (spawnReq p s m).1 = some s') (hses : ses < 32)
    (hused : used p s'.sessions ses = true) : used p s.sessions ses = true := by
  rcases spawnReq_state hs with ⟨-, rfl⟩ | ⟨i, info, -, ⟨sessions, hrel, rfl⟩ | rfl⟩
  · exact hused
  · rw [used_release hrel hses, Bool.and_eq_true] at hused
    exact hused.1
  · exact hused

/-- A slot in use after a spawn request is that of its session or as it was. -/
theorem slot_of_spawnReq (hs : (spawnReq p s m).1 = some s') (j : Fin maxConcurrentSpawns)
    (hj : (s'.slots j).session ≠ p.sessionEmpty) :
    (s'.slots j).session = m.session ∨ s'.slots j = s.slots j := by
  rcases spawnReq_state hs with ⟨-, rfl⟩ | ⟨i, info, -, ⟨sessions, -, rfl⟩ | rfl⟩
  · exact .inr rfl
  · rcases eq_or_ne j i with rfl | hne
    · simp at hj
    · exact .inr (Function.update_of_ne hne ..)
  · rcases eq_or_ne j i with rfl | hne
    · exact .inl (by simp)
    · exact .inr (Function.update_of_ne hne ..)

/-! ## What a slot holds

The messages of a session since its slot was allocated or reset.
-/

def Accepted (p : Platform) (s : State) (m : SpawnReq) : Prop :=
  used p s.sessions m.session = true ∧ Available p s m.session

instance : Decidable (Accepted p s m) := inferInstanceAs (Decidable (_ ∧ _))

def spanStep (p : Platform) (ses : UInt8) (span : List SpawnReq) : State × Event → List SpawnReq
  | (s, .spawn m) =>
      if m.session = ses ∧ Accepted p s m then
        if m.reset ∨ ∀ i, (s.slots i).session ≠ ses then [m] else span ++ [m]
      else span
  | (_, .session _) => span

/-- The messages accepted for a session since its slot was last allocated or reset, the one
that did so included. -/
def spanOf (p : Platform) (ses : UInt8) (tr : List (State × Event)) : List SpawnReq :=
  tr.foldl (spanStep p ses) []

def strings (p : Platform) (type : SpawnType) (span : List SpawnReq) : List CString :=
  (span.filter fun m ↦ m.type = type).map (SpawnReq.str p)

/-- What a slot holds after the messages of a span. -/
def collect (p : Platform) (span : List SpawnReq) : Info := span.foldl (Info.store p) {}

theorem collect_snoc (span : List SpawnReq) (m : SpawnReq) :
    collect p (span ++ [m]) = (collect p span).store p m := by
  simp [collect]

theorem strings_snoc (type : SpawnType) (span : List SpawnReq) (m : SpawnReq) :
    strings p type (span ++ [m]) =
      strings p type span ++ if m.type = type then [m.str p] else [] := by
  by_cases h : m.type = type <;> simp [strings, List.filter_append, h]

theorem collect_eq (span : List SpawnReq) :
    collect p span =
      { exec := (strings p .exe span).getLast?, cwd := (strings p .cwd span).getLast?
        args := (strings p .arg span).map some, env := (strings p .env span).map some } := by
  induction span using List.reverseRecOn with
  | nil => rfl
  | append_singleton span m ih =>
      rw [collect_snoc, ih]
      simp only [strings_snoc, Info.store]
      cases m.type <;> simp

theorem spanOf_snoc (tr : List (State × Event)) (e : State × Event) :
    spanOf p ses (tr ++ [e]) = spanStep p ses (spanOf p ses tr) e := by
  simp [spanOf]

/-- The slots are distinct and hold what their sessions' spans say. -/
structure Inv (p : Platform) (tr : List (State × Event)) (s : State) : Prop where
  distinct : Distinct p s
  holds : ∀ i, (s.slots i).session ≠ p.sessionEmpty →
    (s.slots i).info = collect p (spanOf p (s.slots i).session tr)

variable {tr : List (State × Event)}

/-- The slot a message is placed in holds the span that the message ends. -/
theorem Inv.placed (h : Inv p tr s) (hp : Placed p s m i info) :
    info = collect p (spanOf p m.session (tr ++ [(s, .spawn m)])) := by
  rw [spanOf_snoc, spanStep, if_pos ⟨rfl, hp.used, hp.available⟩]
  rcases hp.slot with ⟨hi, rfl⟩ | ⟨-, hnone, rfl⟩
  · cases hreset : m.reset with
    | true => rfl
    | false =>
        have hnot : ¬ (false = true ∨ ∀ j, (s.slots j).session ≠ m.session) := by
          rintro (hf | hnone)
          · cases hf
          · exact hnone i hi
        have hne : (s.slots i).session ≠ p.sessionEmpty := hi ▸ ne_sessionEmpty_of_used hp.used
        rw [if_neg hnot, collect_snoc, ← hi, ← h.holds i hne]
        rfl
  · rw [if_pos (.inr hnone)]
    rfl

theorem Inv.others (h : Inv p tr s) (hp : Placed p s m i info) {j : Fin maxConcurrentSpawns}
    (hj : j ≠ i) (hne : (s.slots j).session ≠ p.sessionEmpty) :
    (s.slots j).info = collect p (spanOf p (s.slots j).session (tr ++ [(s, .spawn m)])) := by
  rw [spanOf_snoc, spanStep, if_neg fun hacc ↦ hp.others h.distinct hj hacc.1.symm]
  exact h.holds j hne

theorem Inv.spawn (h : Inv p tr s) (hs : (spawnReq p s m).1 = some s') :
    Inv p (tr ++ [(s, .spawn m)]) s' := by
  refine ⟨h.distinct.spawn hs, fun j hne ↦ ?_⟩
  rcases spawnReq_state hs with ⟨hrefused, rfl⟩ | ⟨i, info, hp, ⟨sessions, -, rfl⟩ | rfl⟩
  · rw [spanOf_snoc, spanStep, if_neg fun hacc ↦ hrefused hacc.2]
    exact h.holds j hne
  · rcases eq_or_ne j i with rfl | hj
    · simp at hne
    · simp only [Function.update_of_ne hj] at hne ⊢
      exact h.others hp hj hne
  · rcases eq_or_ne j i with rfl | hj
    · simp only [Function.update_self]
      exact h.placed hp
    · simp only [Function.update_of_ne hj] at hne ⊢
      exact h.others hp hj hne

theorem Inv.session (h : Inv p tr s) (hs : (sessionReq p s ses).1 = some s') :
    Inv p (tr ++ [(s, .session ses)]) s' := by
  refine ⟨h.distinct.session hs, fun i ↦ ?_⟩
  simpa only [sessionReq_slots hs, spanOf_snoc, spanStep] using h.holds i

theorem inv_of_exec (h : Exec (next p) (init p) tr s) : Inv p tr s := by
  induction h with
  | nil => exact ⟨fun _ _ _ hne ↦ absurd rfl hne, fun _ hne ↦ absurd rfl hne⟩
  | @snoc tr s s' e _ hnext ih =>
      cases e with
      | spawn m => exact ih.spawn hnext
      | session ses => exact ih.session hnext

/-- Whatever the messages, a command is run with the strings that were accepted for its
session since its slot was last allocated or reset, and no two slots carry one session. -/
theorem daemonize_own_span (h : Exec (next p) (init p) tr s) :
    (∀ m d, (spawnReq p s m).2 = some d →
      d.args = (strings p .arg (spanOf p m.session (tr ++ [(s, .spawn m)]))).map some ++ [none] ∧
      d.env = (strings p .env (spanOf p m.session (tr ++ [(s, .spawn m)]))).map some ++ [none] ∧
      d.exec = (strings p .exe (spanOf p m.session (tr ++ [(s, .spawn m)]))).getLast? ∧
      d.cwd = (strings p .cwd (spanOf p m.session (tr ++ [(s, .spawn m)]))).getLast?) ∧
    ∀ i j, i ≠ j → (s.slots i).session ≠ p.sessionEmpty →
      (s.slots i).session ≠ (s.slots j).session := by
  have hinv := inv_of_exec h
  refine ⟨fun m d hd ↦ ?_, fun i j hij hi hses ↦ hij (hinv.distinct i j hses hi)⟩
  rcases spawnReq_cases p s m with ⟨-, hreq⟩ | ⟨i, info, hp, hreq⟩
  · rw [hreq] at hd
    cases hd
  · rw [hreq] at hd
    split_ifs at hd
    obtain rfl := Option.some.inj hd
    rw [hinv.placed hp, collect_eq]
    exact ⟨rfl, rfl, rfl, rfl⟩

/-! Two sessions put their commands together at the same time. -/

def platform8 : Platform where
  dataSize := 8
  sessionEmpty := 255
  shift32 := 1
  lt_sessionEmpty := by decide

def twoSessions : List Event :=
  [.session 255, .session 255, .spawn ⟨true, false, .exe, 0, [65, 0]⟩,
    .spawn ⟨true, false, .exe, 1, [66, 0]⟩, .spawn ⟨false, false, .arg, 1, [67, 0]⟩,
    .spawn ⟨false, false, .arg, 0, [68, 0]⟩]

theorem daemonize_own_span_twoSessions : ∃ tr s d,
    Exec (next platform8) (init platform8) tr s ∧
    (spawnReq platform8 s ⟨false, true, .cwd, 0, [69, 0]⟩).2 = some d ∧
    d.args = [some ⟨[68], by decide⟩, none] ∧ d.exec = some ⟨[65], by decide⟩ := by
  obtain ⟨tr, s, hexec, -, hargs, hexe, hsome⟩ : ∃ tr s,
      Exec (next platform8) (init platform8) tr s ∧ Meets (fun _ _ ↦ True) tr ∧
      strings platform8 .arg (spanOf platform8 0
        (tr ++ [(s, .spawn ⟨false, true, .cwd, 0, [69, 0]⟩)])) = [⟨[68], by decide⟩] ∧
      strings platform8 .exe (spanOf platform8 0
        (tr ++ [(s, .spawn ⟨false, true, .cwd, 0, [69, 0]⟩)])) = [⟨[65], by decide⟩] ∧
      (spawnReq platform8 s ⟨false, true, .cwd, 0, [69, 0]⟩).2.isSome :=
    Exec.exists_of_run twoSessions (by decide +kernel)
  obtain ⟨d, hd⟩ := Option.isSome_iff_exists.mp hsome
  obtain ⟨hd_args, -, hd_exec, -⟩ := (daemonize_own_span hexec).1 _ d hd
  refine ⟨tr, s, d, hexec, hd, ?_, ?_⟩
  · rw [hd_args, hargs]
    rfl
  · rw [hd_exec, hexe]
    rfl

end AxiomApps.Spawn
