import AxiomApps.Spawn.Server

/-!
# Remote execution

`axinit_execvpe` obtains a session and sends the command it was given as a stream of
messages: the executable, which resets the slot, the arguments, the environment, and the
working directory, which has the command run. Here the stream meets the server, among the
messages of others.
-/

namespace AxiomApps.Spawn

open EventSystem

/-! ## The stream -/

/-- What a program asks for. The lists may be absent. -/
structure Command where
  filename : CString
  argv : Option (List CString)
  envp : Option (List CString)
  cwd : CString

/-- All strings are shorter than `AXIOM_SPAWN_MAX_DATA_SIZE`. -/
structure Command.Fits (p : Platform) (cmd : Command) : Prop where
  filename : cmd.filename.length < p.dataSize
  argv : ∀ a ∈ cmd.argv.getD [], a.length < p.dataSize
  envp : ∀ a ∈ cmd.envp.getD [], a.length < p.dataSize
  cwd : cmd.cwd.length < p.dataSize

/-- The message sent after a string was copied to the packet buffer `buf`; the string and its
NUL are sent. -/
def request (p : Platform) (session : UInt8) (reset exec : Bool) (type : SpawnType)
    (buf : List UInt8) (str : CString) : SpawnReq :=
  ⟨reset, exec, type, session, (str.strlcpy buf p.dataSize).take (str.length + 1)⟩

/-- The loops over the arguments and over the environment, with the buffer they leave. -/
def requests (p : Platform) (session : UInt8) (type : SpawnType) :
    List UInt8 → List CString → List SpawnReq × List UInt8
  | buf, [] => ([], buf)
  | buf, str :: strs =>
      let r := requests p session type (str.strlcpy buf p.dataSize) strs
      (request p session false false type buf str :: r.1, r.2)

/-- The messages `axinit_execvpe` sends once it has a session. -/
def execMessages (p : Platform) (session : UInt8) (cmd : Command) (buf : List UInt8) :
    List SpawnReq :=
  let args := requests p session .arg (cmd.filename.strlcpy buf p.dataSize) (cmd.argv.getD [])
  let env := requests p session .env args.2 (cmd.envp.getD [])
  request p session true false .exe buf cmd.filename ::
    (args.1 ++ env.1 ++ [request p session false true .cwd env.2 cmd.cwd])

def Command.daemonize (cmd : Command) : Daemonize where
  cwd := some cmd.cwd
  exec := some cmd.filename
  args := (cmd.argv.getD []).map some ++ [none]
  env := (cmd.envp.getD []).map some ++ [none]

/-- A message as the server sees it: its bytes are followed by old ones in the server's
buffer. -/
def Arrives (m m' : SpawnReq) : Prop :=
  ∃ rest, m' = { m with data := m.data ++ rest }

variable {p : Platform} {x : UInt8} {cmd : Command} {buf : List UInt8} {m m' : SpawnReq}
  {ms ms' : List SpawnReq}

/-! ### Flags -/

/-- The first message resets, the last has the command run, and these are two. -/
def Framed (ms : List SpawnReq) : Prop :=
  ∃ k, ms.map (fun m ↦ (m.reset, m.exec)) =
    (true, false) :: (List.replicate k (false, false) ++ [(false, true)])

theorem Framed.split {sent left : List SpawnReq} (h : Framed (sent ++ m :: left)) :
    m.reset = decide (sent = []) ∧ m.exec = decide (left = []) := by
  obtain ⟨k, hk⟩ := h
  have hlength := congrArg List.length hk
  have hget := congrArg (fun l ↦ l[sent.length]?) hk
  simp only [List.length_map, List.length_append, List.length_cons, List.length_replicate,
    List.length_nil] at hlength
  simp only [List.map_append, List.map_cons] at hget
  rw [List.getElem?_append_right (by simp)] at hget
  cases sent with
  | nil =>
      have hleft : left ≠ [] := by
        rintro rfl
        simp at hlength
      simpa [hleft] using hget
  | cons a sent =>
      cases left with
      | nil =>
          obtain rfl : sent.length = k := by simpa using hlength
          simpa using hget
      | cons b left =>
          have hlt : sent.length < k := by
            simp only [List.length_cons] at hlength
            omega
          simpa [List.getElem?_append, hlt] using hget

theorem map_requests (buf : List UInt8) (type : SpawnType) (strs : List CString) :
    (requests p x type buf strs).1.map (fun m ↦ (m.reset, m.exec)) =
      List.replicate strs.length (false, false) := by
  induction strs generalizing buf with
  | nil => rfl
  | cons str strs ih => simp [requests, request, ih, List.replicate_succ]

theorem framed_execMessages : Framed (execMessages p x cmd buf) := by
  refine ⟨(cmd.argv.getD []).length + (cmd.envp.getD []).length, ?_⟩
  simp only [execMessages, List.map_cons, List.map_append, map_requests, request, List.map_nil,
    List.replicate_append_replicate]

theorem Framed.arrives (h : Framed ms) (ha : List.Forall₂ Arrives ms ms') : Framed ms' := by
  obtain ⟨k, hk⟩ := h
  refine ⟨k, hk ▸ ?_⟩
  clear hk
  induction ha with
  | nil => rfl
  | cons h _ ih =>
      obtain ⟨rest, rfl⟩ := h
      simp [ih]

/-! ### Strings -/

theorem Arrives.str {reset exec : Bool} {type : SpawnType} {str : CString}
    (h : Arrives (request p x reset exec type buf str) m') (hfits : str.length < p.dataSize) :
    m'.str p = str ∧ m'.type = type ∧ m'.session = x := by
  obtain ⟨rest, rfl⟩ := h
  refine ⟨?_, rfl, rfl⟩
  simp only [request, SpawnReq.str, CString.take_strlcpy str buf hfits, List.append_assoc,
    List.singleton_append]
  exact CString.ofArray_set_nul str rest (Nat.le_sub_one_of_lt hfits)

theorem strings_requests {type : SpawnType} (type' : SpawnType) {strs : List CString}
    (hfits : ∀ str ∈ strs, str.length < p.dataSize)
    (h : List.Forall₂ Arrives (requests p x type buf strs).1 ms) :
    strings p type' ms = (if type = type' then strs else []) ∧ ∀ m ∈ ms, m.session = x := by
  induction strs generalizing buf ms with
  | nil =>
      obtain rfl := List.forall₂_nil_left_iff.mp h
      simp [strings]
  | cons str strs ih =>
      obtain ⟨m, ms, hm, hms, rfl⟩ := List.forall₂_cons_left_iff.mp h
      obtain ⟨hstr, htype, hsession⟩ := hm.str (hfits str (List.mem_cons_self ..))
      obtain ⟨hstrs, hsessions⟩ := ih (fun s hs ↦ hfits s (List.mem_cons_of_mem _ hs)) hms
      refine ⟨?_, List.forall_mem_cons.mpr ⟨hsession, hsessions⟩⟩
      simp only [strings] at hstrs ⊢
      split_ifs at hstrs ⊢ with heq
      · simp [htype, heq, hstr, hstrs]
      · simp [htype, heq, hstrs]

theorem forall₂_append_left {α β : Type*} {R : α → β → Prop} {l₁ l₂ : List α} {l : List β}
    (h : List.Forall₂ R (l₁ ++ l₂) l) :
    ∃ a b, List.Forall₂ R l₁ a ∧ List.Forall₂ R l₂ b ∧ l = a ++ b :=
  ⟨_, _, (List.forall₂_take_append l l₁ l₂ h.flip).flip,
    (List.forall₂_drop_append l l₁ l₂ h.flip).flip, (List.take_append_drop ..).symm⟩

/-- The whole stream amounts to the command. -/
theorem collect_execMessages (hfits : cmd.Fits p)
    (h : List.Forall₂ Arrives (execMessages p x cmd buf) ms) :
    (collect p ms).daemonize = cmd.daemonize ∧ ∀ m ∈ ms, m.session = x := by
  obtain ⟨exe, ms₁, hexe, hrest, rfl⟩ := List.forall₂_cons_left_iff.mp h
  obtain ⟨ms₂, ms₃, hlists, hlast, rfl⟩ := forall₂_append_left hrest
  obtain ⟨args, env, hargs, henv, rfl⟩ := forall₂_append_left hlists
  obtain ⟨cwd, ms₄, hcwd, hnil, rfl⟩ := List.forall₂_cons_left_iff.mp hlast
  obtain rfl := List.forall₂_nil_left_iff.mp hnil
  obtain ⟨hexe_str, hexe_type, hexe_session⟩ := hexe.str hfits.filename
  obtain ⟨hcwd_str, hcwd_type, hcwd_session⟩ := hcwd.str hfits.cwd
  have hargs_strings := fun type ↦ (strings_requests type hfits.argv hargs).1
  have henv_strings := fun type ↦ (strings_requests type hfits.envp henv).1
  simp only [strings] at hargs_strings henv_strings
  refine ⟨?_, ?_⟩
  · rw [collect_eq]
    simp [Info.daemonize, Command.daemonize, strings, hargs_strings, henv_strings,
      hexe_type, hcwd_type, hexe_str, hcwd_str]
  · simp only [List.forall_mem_cons, List.forall_mem_append, List.not_mem_nil]
    exact ⟨hexe_session, ⟨(strings_requests .arg hfits.argv hargs).2,
      (strings_requests .env hfits.envp henv).2⟩, hcwd_session, fun _ h ↦ h.elim⟩

/-! ## The stream at the server -/

variable {s s' s₀ s₁ : State} {i : Fin maxConcurrentSpawns} {info : Info} {ses : UInt8}
  {tr tr₀ : List (State × Event)}

/-- The session is in use and a slot holds what its messages `ms` amount to; before the first
of them there need be no slot. -/
structure Collected (p : Platform) (s : State) (x : UInt8) (ms : List SpawnReq) : Prop where
  used : used p s.sessions x = true
  holds : ms ≠ [] → ∃ i, s.slots i = ⟨x, collect p ms⟩

theorem Collected.spawn_other (h : Collected p s x ms) (hx : x < 32) (hm : m.session ≠ x)
    (hs : (spawnReq p s m).1 = some s') : Collected p s' x ms := by
  -- the slot of `x` is not the one the message goes to
  have hslot : ∀ {i info}, Placed p s m i info → ∀ slot, ms ≠ [] →
      ∃ j, Function.update s.slots i slot j = ⟨x, collect p ms⟩ := by
    intro i info hp slot hms
    obtain ⟨j, hj⟩ := h.holds hms
    have hne : j ≠ i := by
      rintro rfl
      rcases hp.slot with ⟨hi, -⟩ | ⟨hi, -⟩
      · exact hm (hi.symm.trans (by rw [hj]))
      · exact ne_sessionEmpty_of_used h.used (by rw [← hi, hj])
    exact ⟨j, by rw [Function.update_of_ne hne, hj]⟩
  rcases spawnReq_state hs with ⟨-, rfl⟩ | ⟨i, info, hp, ⟨sessions, hrel, rfl⟩ | rfl⟩
  · exact h
  · refine ⟨?_, hslot hp _⟩
    rw [used_release hrel hx, h.used]
    simpa using hm.symm
  · exact ⟨h.used, hslot hp _⟩

theorem Collected.session_other (h : Collected p s x ms) (hx : x < 32) (hses : ses ≠ x)
    (hs : (sessionReq p s ses).1 = some s') : Collected p s' x ms := by
  refine ⟨?_, sessionReq_slots hs ▸ h.holds⟩
  rw [sessionReq] at hs
  split_ifs at hs
  · obtain ⟨sessions, hrel, rfl⟩ := Option.map_eq_some_iff.mp hs
    simpa [used_release hrel hx, h.used] using hses.symm
  · cases hs
    exact h.used
  · cases hs
    by_cases hzero : s.sessions ≠ 0
    · simp [(nextSession_spec hzero).2.2 x hx, h.used]
    · rw [nextSession, if_neg hzero]
      exact h.used

/-- A message of the stream goes to the slot of the session. -/
theorem Collected.placed (h : Collected p s m.session ms) (hd : Distinct p s)
    (hp : Placed p s m i info) (hreset : m.reset = decide (ms = [])) :
    info = collect p (ms ++ [m]) := by
  rw [collect_snoc]
  by_cases hms : ms = []
  · subst hms
    simp only [decide_true] at hreset
    rcases hp.slot with ⟨-, rfl⟩ | ⟨-, -, rfl⟩
    · rw [if_pos hreset]
      rfl
    · rfl
  · obtain ⟨j, hj⟩ := h.holds hms
    rcases hp.slot with ⟨hi, rfl⟩ | ⟨-, hnone, -⟩
    · have hne : (s.slots j).session ≠ p.sessionEmpty := by
        rw [hj]
        exact ne_sessionEmpty_of_used h.used
      obtain rfl : j = i := hd j i (by rw [hj, hi]) hne
      simp [hreset, hms, hj]
    · exact absurd (by rw [hj]) (hnone j)

theorem Collected.available (h : Collected p s x ms) (hms : ms ≠ []) : Available p s x := by
  obtain ⟨i, hi⟩ := h.holds hms
  exact ⟨i, .inl (by rw [hi])⟩

/-- Before its last message a stream only fills its slot. -/
theorem Collected.own (h : Collected p s m.session ms) (hd : Distinct p s)
    (hexec : m.exec = false) (hreset : m.reset = decide (ms = []))
    (hfirst : ms = [] → Available p s m.session) :
    ∃ s', spawnReq p s m = (some s', none) ∧ Collected p s' m.session (ms ++ [m]) := by
  have havailable : Available p s m.session := by
    by_cases hms : ms = []
    · exact hfirst hms
    · exact h.available hms
  rcases spawnReq_cases p s m with ⟨hrefused, -⟩ | ⟨i, info, hp, hreq⟩
  · exact absurd ⟨h.used, havailable⟩ hrefused
  · obtain rfl := h.placed hd hp hreset
    rw [hexec] at hreq
    exact ⟨_, hreq, h.used, fun _ ↦ ⟨i, by simp⟩⟩

/-- The last message of a stream has the command run and frees the slot and the session. -/
theorem Collected.exec (h : Collected p s m.session ms) (hx : m.session < 32)
    (hd : Distinct p s) (hexec : m.exec = true) (hreset : m.reset = decide (ms = []))
    (hms : ms ≠ []) :
    ∃ s', spawnReq p s m = (some s', some (collect p (ms ++ [m])).daemonize) ∧
      Spawn.used p s'.sessions m.session = false ∧ ∀ i, (s'.slots i).session ≠ m.session := by
  rcases spawnReq_cases p s m with ⟨hrefused, -⟩ | ⟨i, info, hp, hreq⟩
  · exact absurd ⟨h.used, h.available hms⟩ hrefused
  · obtain rfl := h.placed hd hp hreset
    obtain ⟨sessions, hrel⟩ : ∃ sessions, release p s.sessions m.session = some sessions :=
      ⟨_, if_pos hx⟩
    rw [hexec, if_pos rfl, hrel] at hreq
    refine ⟨_, hreq, ?_, fun j ↦ ?_⟩
    · simp [used_release hrel hx]
    · rcases eq_or_ne j i with rfl | hj
      · simpa using (ne_sessionEmpty_of_lt hx).symm
      · simpa [hj] using hp.others hd hj

/-! ## Runs -/

def own (x : UInt8) (tr : List (State × Event)) : List SpawnReq :=
  tr.filterMap fun
    | (_, .spawn m) => if m.session = x then some m else none
    | (_, .session _) => none

def calls (p : Platform) (x : UInt8) (tr : List (State × Event)) : List Daemonize :=
  tr.filterMap fun
    | (s, .spawn m) => if m.session = x then (spawnReq p s m).2 else none
    | (_, .session _) => none

/-- Nobody releases the session, and there is a slot for the message that begins its
stream. -/
def Undisturbed (p : Platform) (x : UInt8) (s : State) : Event → Prop
  | .session ses => ses ≠ x
  | .spawn m => m.session = x → m.reset = true → Available p s x

instance (e : Event) : Decidable (Undisturbed p x s e) := by
  cases e <;> unfold Undisturbed <;> infer_instance

theorem granted_spec (hgrant : sessionReq p s₀ p.sessionEmpty = (some s₁, some x))
    (hx : x ≠ p.sessionEmpty) : x < 32 ∧ used p s₁.sessions x = true := by
  rw [sessionReq, if_neg (not_not.mpr rfl), Prod.mk.injEq] at hgrant
  obtain ⟨hs, hr⟩ := hgrant
  cases hs
  cases hr
  by_cases hzero : s₀.sessions ≠ 0
  · obtain ⟨hlt, -, hused⟩ := nextSession_spec (p := p) hzero
    exact ⟨hlt, by simp [hused _ hlt]⟩
  · exact absurd (by rw [nextSession, if_neg hzero]) hx

theorem collected_of_exec (hd : Distinct p s₁) (hx : x < 32)
    (hused : used p s₁.sessions x = true) (h : Exec (next p) s₁ tr s)
    (hmeets : Meets (Undisturbed p x) tr) (hne : ms ≠ []) (hframed : Framed (own x tr ++ ms)) :
    Distinct p s ∧ Collected p s x (own x tr) ∧ calls p x tr = [] := by
  induction h generalizing ms with
  | nil => exact ⟨hd, ⟨hused, fun h ↦ absurd rfl h⟩, rfl⟩
  | @snoc tr s s' e _ hnext ih =>
      obtain ⟨hbefore, he⟩ := meets_append.mp hmeets
      rw [meets_singleton] at he
      cases e with
      | session ses =>
          have hown : own x (tr ++ [(s, .session ses)]) = own x tr := by simp [own]
          have hcalls : calls p x (tr ++ [(s, .session ses)]) = calls p x tr := by simp [calls]
          rw [hown] at hframed ⊢
          obtain ⟨hd, hcollected, hnone⟩ := ih hbefore hne hframed
          exact ⟨hd.session hnext, hcollected.session_other hx he hnext, hcalls.trans hnone⟩
      | spawn m =>
          by_cases hm : m.session = x
          · subst hm
            have hown : own m.session (tr ++ [(s, .spawn m)]) = own m.session tr ++ [m] := by
              simp [own]
            rw [hown] at hframed ⊢
            rw [List.append_assoc, List.singleton_append] at hframed
            obtain ⟨hd, hcollected, hnone⟩ := ih hbefore (List.cons_ne_nil m ms) hframed
            obtain ⟨hreset, hexec⟩ := hframed.split
            rw [decide_eq_false hne] at hexec
            obtain ⟨s'', hreq, hs''⟩ := hcollected.own hd hexec hreset fun hempty ↦
              he rfl (by rw [hreset, hempty]; rfl)
            obtain rfl : s'' = s' := by
              have hs := hnext
              rw [next, hreq] at hs
              exact Option.some.inj hs
            refine ⟨hd.spawn hnext, hs'', ?_⟩
            simpa [calls, hreq] using hnone
          · have hown : own x (tr ++ [(s, .spawn m)]) = own x tr := by simp [own, hm]
            have hcalls : calls p x (tr ++ [(s, .spawn m)]) = calls p x tr := by simp [calls, hm]
            rw [hown] at hframed ⊢
            obtain ⟨hd, hcollected, hnone⟩ := ih hbefore hne hframed
            exact ⟨hd.spawn hnext, hcollected.spawn_other hx hm hnext, hcalls.trans hnone⟩

/-- A stream that arrives in order, under the session its sender was granted and with a slot
for its first message, leads to one call of `daemonize`, made at its last message with the
command as it was given; slot and session are free then. Other messages, of whatever kind,
may arrive in between. -/
theorem execvpe_runs_command (h₀ : Exec (next p) (init p) tr₀ s₀)
    (hgrant : sessionReq p s₀ p.sessionEmpty = (some s₁, some x)) (hx : x ≠ p.sessionEmpty)
    (h : Exec (next p) s₁ tr s) (hmeets : Meets (Undisturbed p x) tr) (hfits : cmd.Fits p)
    (harrives : List.Forall₂ Arrives (execMessages p x cmd buf) (own x tr ++ [m])) :
    calls p x tr = [] ∧
    ∃ s', spawnReq p s m = (some s', some cmd.daemonize) ∧
      used p s'.sessions x = false ∧ ∀ i, (s'.slots i).session ≠ x := by
  obtain ⟨hlt, hused⟩ := granted_spec hgrant hx
  have hd : Distinct p s₁ := (inv_of_exec h₀).distinct.session (by rw [hgrant])
  obtain ⟨hdaemonize, hsessions⟩ := collect_execMessages hfits harrives
  have hframed := framed_execMessages.arrives harrives
  obtain ⟨hd, hcollected, hnone⟩ :=
    collected_of_exec hd hlt hused h hmeets (List.cons_ne_nil m []) hframed
  obtain rfl : m.session = x := hsessions m (by simp)
  obtain ⟨hreset, hexec⟩ := hframed.split
  have hms : own m.session tr ≠ [] := by
    intro hempty
    have hlength := harrives.length_eq
    rw [hempty] at hlength
    simp [execMessages] at hlength
  obtain ⟨s', hreq, hfree⟩ := hcollected.exec hlt hd hexec hreset hms
  exact ⟨hnone, s', hdaemonize ▸ hreq, hfree⟩

/-- An argument may be empty, and the environment absent. -/
def shortCommand : Command where
  filename := ⟨[65], by decide⟩
  argv := some [⟨[66, 67], by decide⟩, ⟨[], by decide⟩]
  envp := none
  cwd := ⟨[47], by decide⟩

def granted0 : State := { init platform8 with sessions := BitVec.allOnes 32 &&& ~~~1#32 }

theorem execvpe_runs_command_short : ∃ tr s s', Exec (next platform8) granted0 tr s ∧
    spawnReq platform8 s ⟨false, true, .cwd, 0, [47, 0]⟩ =
      (some s', some shortCommand.daemonize) ∧
    used platform8 s'.sessions 0 = false := by
  obtain ⟨tr, s, hexec, hmeets, hown⟩ : ∃ tr s, Exec (next platform8) granted0 tr s ∧
      Meets (Undisturbed platform8 0) tr ∧
      own 0 tr ++ [⟨false, true, .cwd, 0, [47, 0]⟩] =
        execMessages platform8 0 shortCommand [] :=
    Exec.exists_of_run [.session 255, .spawn ⟨true, false, .exe, 0, [65, 0]⟩,
      .spawn ⟨true, false, .exe, 1, [69, 0]⟩, .spawn ⟨false, false, .arg, 0, [66, 67, 0]⟩,
      .session 1, .spawn ⟨false, false, .arg, 0, [0]⟩] (by decide +kernel)
  have harrives : List.Forall₂ Arrives (execMessages platform8 0 shortCommand [])
      (own 0 tr ++ [⟨false, true, .cwd, 0, [47, 0]⟩]) := by
    rw [hown]
    exact List.forall₂_same.mpr fun m _ ↦ ⟨[], by simp⟩
  have hgrant : sessionReq platform8 (init platform8) platform8.sessionEmpty =
      (some granted0, some 0) := by decide +kernel
  have hfits : shortCommand.Fits platform8 :=
    ⟨by decide, by decide, by decide, by decide⟩
  obtain ⟨-, s', hreq, hused, -⟩ :=
    execvpe_runs_command .nil hgrant (by decide) hexec hmeets hfits harrives
  exact ⟨tr, s, s', hexec, hreq, hused⟩

end AxiomApps.Spawn
