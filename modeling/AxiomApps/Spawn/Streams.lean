import AxiomApps.Spawn.Execvpe

/-!
# Streams of several clients

Any number of clients have one axiom-init run a command each. A client's messages arrive in
the order sent; those of different clients interleave. With four slots for 32 sessions, a
stream gets through whole if fewer than four others are under way when it begins.
-/

namespace AxiomApps.Spawn.Streams

open EventSystem

/-- A client that was granted a session has messages that have arrived, as they were sent,
and messages that have not. -/
inductive Client
  | idle
  | sending (session : UInt8) (sent left : List SpawnReq)
  | refused
  deriving DecidableEq

structure Net (C : Type*) where
  server : State
  client : C → Client

/-- The session of a client that has not finished. -/
def Client.held : Client → Option UInt8
  | .sending x _ (_ :: _) => some x
  | _ => none

/-- Some of the messages have arrived, and some have not. -/
def Client.UnderWay : Client → Prop
  | .sending _ (_ :: _) (_ :: _) => True
  | _ => False

def Client.finished : Client → Bool
  | .sending _ _ [] => true
  | _ => false

variable {C : Type*} [DecidableEq C]

section System

variable (p : Platform) (cmd : C → Command) (buf : C → List UInt8)

def start : Net C := ⟨init p, fun _ ↦ .idle⟩

/-- The next message of client `e.1` arrives, followed by the bytes `e.2` in the server's
buffer. The first one asks for a session. -/
def next (s : Net C) (e : C × List UInt8) : Option (Net C) :=
  match s.client e.1 with
  | .idle =>
      let r := nextSession p s.server.sessions
      some ⟨{ s.server with sessions := r.1 }, Function.update s.client e.1
        (if r.2 = p.sessionEmpty then .refused
        else .sending r.2 [] (execMessages p r.2 (cmd e.1) (buf e.1)))⟩
  | .sending x sent (m :: left) =>
      (spawnReq p s.server { m with data := m.data ++ e.2 }).1.map fun server ↦
        ⟨server, Function.update s.client e.1 (.sending x (sent ++ [m]) left)⟩
  | _ => none

def callOf (s : Net C) (e : C × List UInt8) : Option Daemonize :=
  match s.client e.1 with
  | .sending _ _ (m :: _) => (spawnReq p s.server { m with data := m.data ++ e.2 }).2
  | _ => none

def calls (tr : List (Net C × (C × List UInt8))) (c : C) : List Daemonize :=
  tr.filterMap fun e ↦ if e.2.1 = c then callOf p e.1 e.2 else none

/-- When a stream begins, fewer than four others are under way. -/
def Room (s : Net C) (e : C × List UInt8) : Prop :=
  (∃ x left, s.client e.1 = .sending x [] left) →
    ¬ ∃ f : Fin maxConcurrentSpawns ↪ C, ∀ i, (s.client (f i)).UnderWay

end System

variable {p : Platform} {cmd : C → Command} {buf : C → List UInt8}

/-! ## Invariant -/

structure Inv (p : Platform) (cmd : C → Command) (buf : C → List UInt8)
    (tr : List (Net C × (C × List UInt8))) (s : Net C) : Prop where
  distinct : Distinct p s.server
  stream : ∀ c x sent left, s.client c = .sending x sent left →
    x < 32 ∧ sent ++ left = execMessages p x (cmd c) (buf c)
  collected : ∀ c x sent m left, s.client c = .sending x sent (m :: left) →
    ∃ arrived, List.Forall₂ Arrives sent arrived ∧ Collected p s.server x arrived
  apart : ∀ c c' x, (s.client c).held = some x → (s.client c').held = some x → c = c'
  used : ∀ x < 32, used p s.server.sessions x = true → ∃ c, (s.client c).held = some x
  slots : ∀ i, (s.server.slots i).session ≠ p.sessionEmpty →
    ∃ c, (s.client c).held = some (s.server.slots i).session ∧ (s.client c).UnderWay
  calls : ∀ c, calls p tr c = if (s.client c).finished then [(cmd c).daemonize] else []

variable {tr : List (Net C × (C × List UInt8))} {s s' : Net C} {c : C} {rest : List UInt8}
  {x : UInt8} {sent left : List SpawnReq} {m : SpawnReq}

theorem Inv.available (h : Inv p cmd buf tr s)
    (hroom : ¬ ∃ f : Fin maxConcurrentSpawns ↪ C, ∀ i, (s.client (f i)).UnderWay) (x : UInt8) :
    Available p s.server x := by
  by_contra hnone
  have hne : ∀ i, (s.server.slots i).session ≠ p.sessionEmpty := fun i hi ↦ hnone ⟨i, .inr hi⟩
  -- four slots in use belong to four clients
  choose f hheld hunder using fun i ↦ h.slots i (hne i)
  refine hroom ⟨⟨f, fun i j hij ↦ h.distinct i j ?_ (hne i)⟩, hunder⟩
  exact Option.some.inj ((hheld i).symm.trans (hij ▸ hheld j))

theorem calls_snoc (e : C × List UInt8) (c : C) : calls p (tr ++ [(s, e)]) c =
    calls p tr c ++ if e.1 = c then (callOf p s e).toList else [] := by
  by_cases he : e.1 = c
  · cases hcall : callOf p s e <;> simp [calls, he, hcall]
  · simp [calls, he]

/-- What has to be shown when a message of `c` takes the server to `sv` and `c` to `cl`. -/
structure Moves (p : Platform) (cmd : C → Command) (buf : C → List UInt8) (s : Net C) (c : C)
    (sv : State) (cl : Client) : Prop where
  distinct : Distinct p sv
  stream : ∀ x sent left, cl = .sending x sent left →
    x < 32 ∧ sent ++ left = execMessages p x (cmd c) (buf c)
  collected : ∀ x sent m left, cl = .sending x sent (m :: left) →
    ∃ arrived, List.Forall₂ Arrives sent arrived ∧ Collected p sv x arrived
  apart : ∀ c' ≠ c, ∀ x, cl.held = some x → (s.client c').held ≠ some x
  others : ∀ c' ≠ c, ∀ x arrived, (s.client c').held = some x →
    Collected p s.server x arrived → Collected p sv x arrived
  used : ∀ x < 32, Spawn.used p sv.sessions x = true →
    cl.held = some x ∨ ∃ c' ≠ c, (s.client c').held = some x
  slots : ∀ i, (sv.slots i).session ≠ p.sessionEmpty →
    cl.held = some (sv.slots i).session ∧ cl.UnderWay ∨
    ∃ c' ≠ c, (s.client c').held = some (sv.slots i).session ∧ (s.client c').UnderWay

theorem Inv.moves (h : Inv p cmd buf tr s) (hne : ∀ c' ≠ c, s'.client c' = s.client c')
    (hm : Moves p cmd buf s c s'.server (s'.client c))
    (hcalls : Streams.calls p tr c ++ (callOf p s (c, rest)).toList =
      if (s'.client c).finished then [(cmd c).daemonize] else []) :
    Inv p cmd buf (tr ++ [(s, (c, rest))]) s' := by
  have hapart : ∀ c' ≠ c, ∀ x, (s'.client c).held = some x → (s'.client c').held ≠ some x :=
    fun c' hc' ↦ hne c' hc' ▸ hm.apart c' hc'
  refine ⟨hm.distinct, fun c' ↦ ?_, fun c' ↦ ?_, fun c₁ c₂ x h₁ h₂ ↦ ?_, fun x hx hu ↦ ?_,
    fun i hi ↦ ?_, fun c' ↦ ?_⟩
  · rcases eq_or_ne c' c with rfl | hc'
    · exact hm.stream
    · rw [hne c' hc']
      exact h.stream c'
  · rcases eq_or_ne c' c with rfl | hc'
    · exact hm.collected
    · rw [hne c' hc']
      intro x sent m left hcl
      obtain ⟨arrived, harrived, hcollected⟩ := h.collected c' x sent m left hcl
      exact ⟨arrived, harrived, hm.others c' hc' x arrived (by rw [hcl]; rfl) hcollected⟩
  · by_contra h₁₂
    by_cases hc₁ : c₁ = c
    · exact hapart c₂ (hc₁ ▸ Ne.symm h₁₂) x (hc₁ ▸ h₁) h₂
    · by_cases hc₂ : c₂ = c
      · exact hapart c₁ hc₁ x (hc₂ ▸ h₂) h₁
      · exact h₁₂ (h.apart c₁ c₂ x (hne c₁ hc₁ ▸ h₁) (hne c₂ hc₂ ▸ h₂))
  · rcases hm.used x hx hu with hheld | ⟨c', hc', hheld⟩
    · exact ⟨c, hheld⟩
    · exact ⟨c', (hne c' hc').symm ▸ hheld⟩
  · rcases hm.slots i hi with hheld | ⟨c', hc', hheld⟩
    · exact ⟨c, hheld⟩
    · exact ⟨c', (hne c' hc').symm ▸ hheld⟩
  · rw [calls_snoc]
    rcases eq_or_ne c' c with rfl | hc'
    · simpa only [if_true] using hcalls
    · rw [if_neg hc'.symm, List.append_nil, hne c' hc']
      exact h.calls c'

theorem Inv.update (h : Inv p cmd buf tr s) {sv : State} {cl : Client}
    (hm : Moves p cmd buf s c sv cl)
    (hcalls : Streams.calls p tr c ++ (callOf p s (c, rest)).toList =
      if cl.finished then [(cmd c).daemonize] else []) :
    Inv p cmd buf (tr ++ [(s, (c, rest))]) ⟨sv, Function.update s.client c cl⟩ := by
  refine h.moves (fun c' hc' ↦ Function.update_of_ne hc' ..) ?_ ?_
  · simpa only [Function.update_self] using hm
  · simpa only [Function.update_self] using hcalls

/-! ## Steps -/

theorem held_of_left (hleft : left ≠ []) :
    (Client.sending x (sent ++ [m]) left).held = some x ∧
      (Client.sending x (sent ++ [m]) left).UnderWay := by
  obtain ⟨b, l, rfl⟩ := List.exists_cons_of_ne_nil hleft
  cases sent <;> exact ⟨rfl, trivial⟩

theorem Client.held_eq_some {cl : Client} (h : cl.held = some x) :
    ∃ sent m left, cl = .sending x sent (m :: left) := by
  match cl, h with
  | .sending _ sent (m :: left), rfl => exact ⟨sent, m, left, rfl⟩

theorem Inv.used_of_held (h : Inv p cmd buf tr s) (hheld : (s.client c).held = some x) :
    x < 32 ∧ Spawn.used p s.server.sessions x = true := by
  obtain ⟨sent, m, left, hcl⟩ := Client.held_eq_some hheld
  obtain ⟨arrived, -, hcollected⟩ := h.collected c x sent m left hcl
  exact ⟨(h.stream c x sent _ hcl).1, hcollected.used⟩

theorem Inv.moves_refused (h : Inv p cmd buf tr s) (hidle : s.client c = .idle) :
    Moves p cmd buf s c s.server .refused := by
  have hother : ∀ c' x, (s.client c').held = some x → c' ≠ c := by
    rintro c' x hc' rfl
    simp [hidle, Client.held] at hc'
  refine ⟨h.distinct, nofun, nofun, nofun, fun _ _ _ _ _ hcollected ↦ hcollected,
    fun x hx hu ↦ .inr ?_, fun i hi ↦ .inr ?_⟩
  · obtain ⟨c', hc'⟩ := h.used x hx hu
    exact ⟨c', hother c' x hc', hc'⟩
  · obtain ⟨c', hc', hunder⟩ := h.slots i hi
    exact ⟨c', hother c' _ hc', hc', hunder⟩

theorem Inv.moves_granted (h : Inv p cmd buf tr s) (hidle : s.client c = .idle)
    (hzero : s.server.sessions ≠ 0) :
    Moves p cmd buf s c { s.server with sessions := (nextSession p s.server.sessions).1 }
      (.sending (nextSession p s.server.sessions).2 []
        (execMessages p (nextSession p s.server.sessions).2 (cmd c) (buf c))) := by
  obtain ⟨hlt, hfree, hused⟩ := nextSession_spec (p := p) hzero
  have hold := h.moves_refused hidle
  refine ⟨h.distinct, ?_, ?_, fun c' _ x hx hc' ↦ ?_, fun c' hc' x arrived hheld hcollected ↦ ?_,
    fun x hx hu ↦ ?_, fun i hi ↦ (hold.slots i hi).imp_left fun hnone ↦ absurd hnone.1 nofun⟩
  · rintro x sent left ⟨⟩
    exact ⟨hlt, rfl⟩
  · intro x sent m left hcl
    injection hcl with hx hsent
    subst hx hsent
    exact ⟨[], .nil, by simp [hused _ hlt], fun hne ↦ absurd rfl hne⟩
  · -- a session that is granted was free
    obtain rfl := Option.some.inj hx
    exact absurd (h.used_of_held hc').2 (by simp [hfree])
  · have hx := (h.used_of_held hheld).1
    exact ⟨by simp [hused x hx, hcollected.used], hcollected.holds⟩
  · rw [hused x hx, Bool.or_eq_true, beq_iff_eq] at hu
    rcases hu with hu | rfl
    · exact (hold.used x hx hu).imp_left fun hnone ↦ absurd hnone nofun
    · exact .inl rfl

theorem Inv.grant (h : Inv p cmd buf tr s) (hidle : s.client c = .idle)
    (hnext : next p cmd buf s (c, rest) = some s') :
    Inv p cmd buf (tr ++ [(s, (c, rest))]) s' := by
  have hcalls : Streams.calls p tr c ++ (callOf p s (c, rest)).toList = [] := by
    rw [h.calls c, callOf, hidle]
    rfl
  simp only [next, hidle, Option.some.injEq] at hnext
  by_cases hzero : s.server.sessions ≠ 0
  · rw [if_neg (ne_sessionEmpty_of_lt (nextSession_spec hzero).1)] at hnext
    exact hnext ▸ h.update (h.moves_granted hidle hzero) hcalls
  · have hr : nextSession p s.server.sessions = (s.server.sessions, p.sessionEmpty) := if_neg hzero
    rw [hr, if_pos rfl] at hnext
    exact hnext ▸ h.update (h.moves_refused hidle) hcalls

/-- A message of a stream: it fills the slot, or it is the last one and frees the slot and the
session. -/
theorem Inv.moves_sent (h : Inv p cmd buf tr s) (hcl : s.client c = .sending x sent (m :: left))
    {m' : SpawnReq} (hm : m'.session = x) {sv : State}
    (hsv : (spawnReq p s.server m').1 = some sv)
    (hcases : (left ≠ [] ∧ ∃ arrived, List.Forall₂ Arrives (sent ++ [m]) arrived ∧
        Collected p sv x arrived) ∨
      (left = [] ∧ Spawn.used p sv.sessions x = false ∧ ∀ i, (sv.slots i).session ≠ x)) :
    Moves p cmd buf s c sv (.sending x (sent ++ [m]) left) := by
  obtain ⟨hx, hstream⟩ := h.stream c x sent _ hcl
  have hheld : (s.client c).held = some x := by rw [hcl]; rfl
  have hother : ∀ c' ≠ c, (s.client c').held ≠ some x :=
    fun c' hc' hc ↦ hc' (h.apart c' c x hc hheld)
  have hx_of_held : ∀ c' x', (s.client c').held = some x' → x' ≠ x → c' ≠ c := by
    rintro c' x' hc' hne rfl
    exact hne (Option.some.inj (hc'.symm.trans hheld))
  refine ⟨h.distinct.spawn hsv, ?_, ?_, fun c' hc' x' hx' ↦ ?_,
    fun c' hc' x' arrived hc hcollected ↦ ?_, fun x' hx' hu ↦ ?_, fun i hi ↦ ?_⟩
  · rintro _ _ _ ⟨⟩
    exact ⟨hx, by simpa using hstream⟩
  · rintro _ _ _ _ ⟨⟩
    rcases hcases with ⟨-, hcollected⟩ | ⟨hnil, -⟩
    · exact hcollected
    · cases hnil
  · obtain ⟨sent', b, l, heq⟩ := Client.held_eq_some hx'
    injection heq with heq
    exact heq ▸ hother c' hc'
  · refine hcollected.spawn_other (h.used_of_held hc).1 ?_ hsv
    rintro heq
    exact hother c' hc' (hm ▸ heq ▸ hc)
  · obtain ⟨c', hc'⟩ := h.used x' hx' (used_of_spawnReq hsv hx' hu)
    by_cases hne : x' = x
    · subst hne
      rcases hcases with ⟨hleft, -⟩ | ⟨-, hfree, -⟩
      · exact .inl (held_of_left hleft).1
      · simp [hfree] at hu
    · exact .inr ⟨c', hx_of_held c' x' hc' hne, hc'⟩
  · by_cases hne : (sv.slots i).session = x
    · rcases hcases with ⟨hleft, -⟩ | ⟨-, -, hfree⟩
      · exact .inl (hne ▸ held_of_left hleft)
      · exact absurd hne (hfree i)
    · have hsame := (slot_of_spawnReq hsv i hi).resolve_left (hm ▸ hne)
      rw [hsame] at hi hne ⊢
      obtain ⟨c', hc', hunder⟩ := h.slots i hi
      exact .inr ⟨c', hx_of_held c' _ hc' hne, hc', hunder⟩

/-- A message of a stream carries its session, and the flags of its place in the stream. -/
theorem Inv.message (h : Inv p cmd buf tr s) (hfits : (cmd c).Fits p)
    (hcl : s.client c = .sending x sent (m :: left)) :
    m.session = x ∧ m.reset = decide (sent = []) ∧ m.exec = decide (left = []) := by
  obtain ⟨-, hstream⟩ := h.stream c x sent _ hcl
  have hself : List.Forall₂ Arrives (execMessages p x (cmd c) (buf c))
      (execMessages p x (cmd c) (buf c)) := List.forall₂_same.mpr fun m _ ↦ ⟨[], by simp⟩
  have hmem : m ∈ execMessages p x (cmd c) (buf c) := hstream ▸ by simp
  have hframed : Framed (sent ++ m :: left) := hstream ▸ framed_execMessages
  exact ⟨(collect_execMessages hfits hself).2 m hmem, hframed.split⟩

theorem Inv.arrive (h : Inv p cmd buf tr s) (hfits : (cmd c).Fits p)
    (hcl : s.client c = .sending x sent (m :: left)) (rest : List UInt8)
    (hroom : sent = [] → Available p s.server x) :
    ∃ s', next p cmd buf s (c, rest) = some s' ∧ Inv p cmd buf (tr ++ [(s, (c, rest))]) s' := by
  obtain ⟨hx, hstream⟩ := h.stream c x sent _ hcl
  obtain ⟨arrived, harrived, hcollected⟩ := h.collected c x sent m left hcl
  have hempty : arrived = [] ↔ sent = [] := by
    rw [← List.length_eq_zero_iff, ← List.length_eq_zero_iff, harrived.length_eq]
  obtain ⟨m', hm'⟩ : ∃ m', m' = { m with data := m.data ++ rest } := ⟨_, rfl⟩
  obtain ⟨rfl, hreset, hexec⟩ : m'.session = x ∧ m'.reset = decide (arrived = []) ∧
      m'.exec = decide (left = []) := by
    have hmessage := h.message hfits hcl
    rw [hm', decide_eq_decide.mpr hempty]
    exact hmessage
  have harrived' : List.Forall₂ Arrives (sent ++ [m]) (arrived ++ [m']) :=
    List.rel_append harrived (.cons ⟨rest, hm'⟩ .nil)
  have hnext : next p cmd buf s (c, rest) = (spawnReq p s.server m').1.map fun sv ↦
      ⟨sv, Function.update s.client c (.sending m'.session (sent ++ [m]) left)⟩ := by
    simp only [next, hcl, ← hm']
  have hcall : callOf p s (c, rest) = (spawnReq p s.server m').2 := by
    simp only [callOf, hcl, ← hm']
  have hbefore : Streams.calls p tr c = [] := by
    rw [h.calls c, hcl]
    rfl
  by_cases hleft : left = []
  · subst hleft
    have hne : arrived ≠ [] := by
      intro hnil
      have hlength := congrArg List.length hstream
      rw [hempty.mp hnil] at hlength
      simp [execMessages] at hlength
    obtain ⟨sv, hreq, hfree⟩ := hcollected.exec hx h.distinct (by simpa using hexec) hreset hne
    have hdaemonize := (collect_execMessages hfits (hstream ▸ harrived')).1
    rw [hreq] at hnext hcall
    refine ⟨_, hnext, h.update (h.moves_sent hcl rfl (by rw [hreq]) (.inr ⟨rfl, hfree⟩)) ?_⟩
    rw [hbefore, hcall, hdaemonize]
    rfl
  · obtain ⟨sv, hreq, hcollected'⟩ :=
      hcollected.own h.distinct (by simpa [hleft] using hexec) hreset (hroom ∘ hempty.mp)
    rw [hreq] at hnext hcall
    refine ⟨_, hnext, h.update (h.moves_sent hcl rfl (by rw [hreq])
      (.inl ⟨hleft, _, harrived', hcollected'⟩)) ?_⟩
    obtain ⟨b, l, rfl⟩ := List.exists_cons_of_ne_nil hleft
    rw [hbefore, hcall]
    rfl

theorem inv_start : Inv p cmd buf [] (start p) := by
  refine ⟨fun _ _ _ hne ↦ absurd rfl hne, nofun, nofun, nofun, fun x hx hu ↦ ?_,
    fun _ hne ↦ absurd rfl hne, fun _ ↦ rfl⟩
  have hfree : used p (BitVec.allOnes 32) x = false := by
    have hlt : x.toNat < 32 := hx
    rw [used_eq hx, BitVec.getLsbD_allOnes, decide_eq_true hlt]
    rfl
  exact absurd (hfree.symm.trans hu) Bool.false_ne_true

theorem Inv.step (h : Inv p cmd buf tr s) (hfits : ∀ c, (cmd c).Fits p)
    {e : C × List UInt8} (hroom : Room s e) (hnext : next p cmd buf s e = some s') :
    Inv p cmd buf (tr ++ [(s, e)]) s' := by
  obtain ⟨c, rest⟩ := e
  cases hcl : s.client c with
  | idle => exact h.grant hcl hnext
  | refused => simp [next, hcl] at hnext
  | sending x sent left =>
      cases left with
      | nil => simp [next, hcl] at hnext
      | cons m left =>
          obtain ⟨s'', hs'', hinv⟩ := h.arrive (hfits c) hcl rest fun hsent ↦
            h.available (hroom ⟨x, _, hsent ▸ hcl⟩) x
          exact Option.some.inj (hs''.symm.trans hnext) ▸ hinv

/-- If a stream only begins while fewer than four others are under way, every stream that has
arrived whole has had its command run, once and exactly as given, and no other has; the
sessions in use are those of the streams that are not finished, and none of these is stuck. -/
theorem streams_run_whole (hfits : ∀ c, (cmd c).Fits p)
    (h : Exec (next p cmd buf) (start p) tr s) (hroom : Meets Room tr) :
    (∀ c, calls p tr c = if (s.client c).finished then [(cmd c).daemonize] else []) ∧
    (∀ x < 32, used p s.server.sessions x = true ↔ ∃ c, (s.client c).held = some x) ∧
    ∀ c x rest, (s.client c).held = some x → Room s (c, rest) →
      ∃ s', next p cmd buf s (c, rest) = some s' := by
  have hinv : Inv p cmd buf tr s :=
    h.trace_invariant (I := Inv p cmd buf) inv_start
      (fun _ _ _ _ hinv hC hnext ↦ hinv.step hfits hC hnext) hroom
  refine ⟨hinv.calls, fun x hx ↦ ⟨hinv.used x hx, fun ⟨c, hc⟩ ↦ (hinv.used_of_held hc).2⟩,
    fun c x rest hc hC ↦ ?_⟩
  obtain ⟨sent, m, left, hcl⟩ := Client.held_eq_some hc
  obtain ⟨s', hs', -⟩ := hinv.arrive (hfits c) hcl rest fun hsent ↦
    hinv.available (hC ⟨x, _, hsent ▸ hcl⟩) x
  exact ⟨s', hs'⟩

theorem streams_run_whole_two : ∃ tr s,
    Exec (next platform8 (fun _ : Bool ↦ shortCommand) fun _ ↦ []) (start platform8) tr s ∧
    ∀ c, calls platform8 tr c = [shortCommand.daemonize] := by
  obtain ⟨tr, s, hexec, -, hfinished⟩ : ∃ tr s,
      Exec (next platform8 (fun _ : Bool ↦ shortCommand) fun _ ↦ []) (start platform8) tr s ∧
      Meets (fun _ _ ↦ True) tr ∧ ∀ c, (s.client c).finished = true :=
    Exec.exists_of_run ([false, true, false, true, true, false, false, true, true, false].map
      fun c ↦ (c, [])) (by decide +kernel)
  have hfits : shortCommand.Fits platform8 := ⟨by decide, by decide, by decide, by decide⟩
  have hroom : Meets Room tr := by
    rintro e - - ⟨f, -⟩
    exact absurd (Fintype.card_le_of_embedding f) (by decide)
  refine ⟨tr, s, hexec, fun c ↦ ?_⟩
  rw [(streams_run_whole (fun _ ↦ hfits) hexec hroom).1 c, hfinished c]
  rfl

/-- A command without arguments: its stream has two messages. -/
def plainCommand : Command := { shortCommand with argv := none }

/-- Five streams, with four others under way when the last begins: its first message is
dropped. If a slot becomes free before its second message the command is run without an
executable; otherwise it is not run, and its session stays in use. -/
theorem fifthStream_lost :
    (∃ tr s, Exec (next platform8 (fun _ : Fin 5 ↦ plainCommand) fun _ ↦ []) (start platform8)
      tr s ∧ (s.client 4).finished = true ∧
      calls platform8 tr 4 = [{ plainCommand.daemonize with exec := none }]) ∧
    ∃ tr s, Exec (next platform8 (fun _ : Fin 5 ↦ plainCommand) fun _ ↦ []) (start platform8)
      tr s ∧ (∀ c, (s.client c).finished = true) ∧ calls platform8 tr 4 = [] ∧
      used platform8 s.server.sessions 4 = true := by
  obtain ⟨tr, s, hexec, -, h⟩ : ∃ tr s,
      Exec (next platform8 (fun _ : Fin 5 ↦ plainCommand) fun _ ↦ []) (start platform8) tr s ∧
      Meets (fun _ _ ↦ True) tr ∧ (s.client 4).finished = true ∧
      calls platform8 tr 4 = [{ plainCommand.daemonize with exec := none }] :=
    Exec.exists_of_run ([0, 1, 2, 3, 4, 0, 1, 2, 3, 4, 0, 4].map fun c ↦ (c, []))
      (by decide +kernel)
  obtain ⟨tr', s', hexec', -, h'⟩ : ∃ tr s,
      Exec (next platform8 (fun _ : Fin 5 ↦ plainCommand) fun _ ↦ []) (start platform8) tr s ∧
      Meets (fun _ _ ↦ True) tr ∧ (∀ c, (s.client c).finished = true) ∧
      calls platform8 tr 4 = [] ∧ used platform8 s.server.sessions 4 = true :=
    Exec.exists_of_run ([0, 1, 2, 3, 4, 0, 1, 2, 3, 4, 4, 0, 1, 2, 3].map fun c ↦ (c, []))
      (by decide +kernel)
  exact ⟨⟨tr, s, hexec, h⟩, tr', s', hexec', h'⟩

end AxiomApps.Spawn.Streams
