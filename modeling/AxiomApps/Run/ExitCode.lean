import AxiomApps.Run.ExitStatus

/-!
# The exit code of axiom-run

The statuses that the slaves report come to the master in any order, each once. What the master
makes of them in the modes for the greatest and the least exit code does not depend on that
order, and `main` turns it into the exit code of axiom-run.
-/

namespace AxiomApps.Run.ExitCode

open EventSystem Exit ExitStatus

/-- What `main` returns for an exit value. -/
def myexit (exitval : ℕ) : ℕ :=
  if wifexited exitval then wexitstatus exitval
  else if wifsignaled exitval then wtermsig exitval + 128
  else 255

variable {V : Type*} [DecidableEq V]

/-- The status of an end, and not of a stop or a continuation. -/
def IsEnd (status : ℕ) : Prop := wifexited status = true ∨ wifsignaled status = true

/-- The children are started, `waitpid` reports no stop and no continuation, and no slave gets a
signal. -/
def Quiet (_ : State V) : Event V → Prop
  | .signalled _ _ | .notStarted _ _ => False
  | .childReports _ status => IsEnd status
  | _ => True

instance (s : State V) (e : Event V) : Decidable (Quiet s e) :=
  match e with
  | .signalled _ _ | .notStarted _ _ => .isFalse not_false
  | .childReports _ status =>
      inferInstanceAs (Decidable (wifexited status = true ∨ wifsignaled status = true))
  | .started _ | .waited _ | .killReceived _ | .exitSent _
  | .handlerSent _ | .exited _ | .masterSent | .masterReceived _ => .isTrue trivial

/-- The status a slave reports for its child. -/
def report (cfg : Config V) (n : Slave) : ℕ :=
  reported cfg.termmode n.mySigterm (n.child.getD 0)

/-! ## What has arrived -/

/-- The message the master takes in a step, with its sender. -/
def arrival (p : State V × Event V) : Option (V × ℕ) :=
  match p.2 with
  | .masterReceived v => (p.1.up v).head?.map (v, ·)
  | _ => none

def arrivals (tr : List (State V × Event V)) : List (V × ℕ) := tr.filterMap arrival

/-- The statuses that have arrived from a node. -/
def arrivedFrom (tr : List (State V × Event V)) (v : V) : List ℕ :=
  ((arrivals tr).filter (·.1 = v)).map Prod.snd

section Invariant

variable {cfg : Config V} {tr : List (State V × Event V)} {s s' : State V} {e : Event V} {v : V}

omit [DecidableEq V] in
theorem arrivals_snoc (p : State V × Event V) :
    arrivals (tr ++ [p]) = arrivals tr ++ (arrival p).toList := by
  simp only [arrivals, List.filterMap_append]
  cases hp : arrival p <;> simp [hp]

omit [DecidableEq V] in
theorem arrivals_snoc_of_ne (he : ∀ v, e ≠ .masterReceived v) :
    arrivals (tr ++ [(s, e)]) = arrivals tr := by
  have hnone : arrival (s, e) = none := by
    rw [arrival]
    split
    · next v hv => exact absurd hv (he v)
    · rfl
  rw [arrivals_snoc, hnone, Option.toList_none, List.append_nil]

/-- What a slave has decided to report and has sent, and what the master has made of what it
received. -/
structure Inv (cfg : Config V) (tr : List (State V × Event V)) (s : State V) : Prop where
  frames : ∀ v, (s.slave v).frames = []
  child : ∀ v status, (s.slave v).child = some status → IsEnd status
  ending : ∀ v status, (s.slave v).main = .ending status →
    (s.slave v).child ≠ none ∧ status = report cfg (s.slave v)
  sent : ∀ v, (s.slave v).main = .sent → (s.slave v).child ≠ none
  mail : ∀ v, arrivedFrom tr v ++ s.up v =
    if (s.slave v).main = .sent then [report cfg (s.slave v)] else []
  master : s.master = ((arrivals tr).map Prod.snd).foldl (masterReceiver cfg.mode)
    (init cfg).master

theorem inv_init : Inv cfg [] (init cfg) where
  frames _ := rfl
  child _ _ h := by cases h
  ending _ _ h := by cases h
  sent _ h := by cases h
  mail _ := rfl
  master := rfl

/-- A step of one slave that sends nothing. -/
theorem Inv.setSlave (hi : Inv cfg tr s) (he : ∀ v, e ≠ .masterReceived v) {n : Slave}
    (hslave : s'.slave = Function.update s.slave v n) (hup : s'.up = s.up)
    (hmaster : s'.master = s.master) (hframes : n.frames = [])
    (hchild : ∀ status, n.child = some status → IsEnd status)
    (hending : ∀ status, n.main = .ending status → n.child ≠ none ∧ status = report cfg n)
    (hsent : n.main = .sent → n.child ≠ none)
    (hkeeps : n.main = .sent ↔ (s.slave v).main = .sent)
    (hreport : n.main = .sent → report cfg n = report cfg (s.slave v)) :
    Inv cfg (tr ++ [(s, e)]) s' := by
  have harrived : ∀ w, arrivedFrom (tr ++ [(s, e)]) w = arrivedFrom tr w := by
    intro w
    rw [arrivedFrom, arrivals_snoc_of_ne he, arrivedFrom]
  refine ⟨fun w ↦ ?_, fun w ↦ ?_, fun w ↦ ?_, fun w ↦ ?_, fun w ↦ ?_, ?_⟩
  · rw [hslave]
    by_cases hw : w = v
    · subst hw
      simpa using hframes
    · simpa [hw] using hi.frames w
  · rw [hslave]
    by_cases hw : w = v
    · subst hw
      simpa using hchild
    · simpa [hw] using hi.child w
  · rw [hslave]
    by_cases hw : w = v
    · subst hw
      simpa using hending
    · simpa [hw] using hi.ending w
  · rw [hslave]
    by_cases hw : w = v
    · subst hw
      simpa using hsent
    · simpa [hw] using hi.sent w
  · rw [harrived, hup, hi.mail w, hslave]
    by_cases hw : w = v
    · subst hw
      simp only [Function.update_self, hkeeps]
      split_ifs with hmain
      · rw [hreport (hkeeps.mpr hmain)]
      · rfl
    · simp [hw]
  · rw [hmaster, arrivals_snoc_of_ne he]
    exact hi.master

theorem Inv.exitSent (hi : Inv cfg tr s) (h : next cfg s (.exitSent v) = some s') :
    Inv cfg (tr ++ [(s, .exitSent v)]) s' := by
  have harrived : ∀ w, arrivedFrom (tr ++ [(s, .exitSent v)]) w = arrivedFrom tr w := by
    intro w
    rw [arrivedFrom, arrivals_snoc_of_ne (by simp), arrivedFrom]
  simp only [next] at h
  split at h
  · next status hmain =>
      simp only [Option.ite_none_right_eq_some, Option.some.injEq] at h
      obtain ⟨⟨-, hframes⟩, rfl⟩ := h
      obtain ⟨hchild, hstatus⟩ := hi.ending v status hmain
      simp only [State.setSlave, State.send]
      refine ⟨fun w ↦ ?_, fun w ↦ ?_, fun w status' hw' ↦ ?_, fun w hw' ↦ ?_, fun w ↦ ?_, ?_⟩
      · by_cases hw : w = v
        · subst hw
          simpa using hframes
        · simpa [hw] using hi.frames w
      · by_cases hw : w = v
        · subst hw
          simpa using hi.child w
        · simpa [hw] using hi.child w
      · by_cases hw : w = v
        · subst hw
          simp at hw'
        · simp only [Function.update_of_ne hw] at hw' ⊢
          exact hi.ending w status' hw'
      · by_cases hw : w = v
        · subst hw
          simpa using hchild
        · simp only [Function.update_of_ne hw] at hw' ⊢
          exact hi.sent w hw'
      · have hmail := hi.mail w
        rw [harrived]
        by_cases hw : w = v
        · subst hw
          simp only [hmain, reduceCtorEq, if_false, List.append_eq_nil_iff] at hmail
          simp [hmail, hstatus, report]
        · simpa [hw] using hmail
      · rw [arrivals_snoc_of_ne (by simp)]
        exact hi.master
  · cases h

theorem Inv.masterReceived (hi : Inv cfg tr s) (h : next cfg s (.masterReceived v) = some s') :
    Inv cfg (tr ++ [(s, .masterReceived v)]) s' := by
  simp only [next] at h
  split at h
  · next status rest hout hup =>
      simp only [Option.ite_none_left_eq_some, Option.some.injEq] at h
      obtain ⟨-, rfl⟩ := h
      have harrival : arrival (s, Event.masterReceived v) = some (v, status) := by
        simp [arrival, hup]
      refine ⟨hi.frames, hi.child, hi.ending, hi.sent, fun w ↦ ?_, ?_⟩
      · have hmail := hi.mail w
        simp only [arrivedFrom, arrivals_snoc, harrival, Option.toList_some] at hmail ⊢
        by_cases hw : w = v
        · subst hw
          rw [hup] at hmail
          simpa using hmail
        · simpa [hw, Ne.symm hw] using hmail
      · simp only [arrivals_snoc, harrival, Option.toList_some, List.map_append, List.map_cons,
          List.map_nil, List.foldl_append, List.foldl_cons, List.foldl_nil, ← hi.master]
  · cases h

theorem Inv.step (hi : Inv cfg tr s) (he : Quiet s e) (h : next cfg s e = some s') :
    Inv cfg (tr ++ [(s, e)]) s' := by
  cases e with
  | started v =>
      simp only [next, Option.ite_none_right_eq_some, Option.some.injEq] at h
      obtain ⟨⟨-, hmain, -⟩, rfl⟩ := h
      exact hi.setSlave (by simp) rfl rfl rfl (hi.frames v) (hi.child v) (by simp) (by simp)
        (by simp [hmain]) (by simp)
  | notStarted v status => exact absurd he not_false
  | childReports v status =>
      simp only [next, Option.ite_none_right_eq_some, Option.some.injEq] at h
      obtain ⟨⟨-, hchild⟩, rfl⟩ := h
      refine hi.setSlave (by simp) rfl rfl rfl (hi.frames v) (fun status' hstatus ↦ ?_)
        (fun status' hmain ↦ ?_) (by simp) Iff.rfl (fun hmain ↦ ?_)
      · obtain rfl : status = status' := Option.some.inj hstatus
        exact he
      · exact absurd hchild (hi.ending v status' hmain).1
      · exact absurd hchild (hi.sent v hmain)
  | waited v =>
      simp only [next, Option.ite_none_right_eq_some, Option.map_eq_some_iff] at h
      obtain ⟨⟨-, hmain, -⟩, status, hchild, rfl⟩ := h
      refine hi.setSlave (by simp) rfl rfl rfl (hi.frames v) (hi.child v)
        (fun status' hstatus ↦ ?_) (by simp) (by simp [hmain]) (by simp)
      simp only [Main.ending.injEq] at hstatus
      exact ⟨by simp [hchild], by simp [report, hchild, ← hstatus]⟩
  | killReceived v =>
      simp only [next, Option.ite_none_right_eq_some, Option.some.injEq] at h
      obtain ⟨⟨-, hmain, -⟩, rfl⟩ := h
      exact hi.setSlave (by simp) rfl rfl rfl (hi.frames v) (hi.child v) (by simp [hmain])
        (by simp [hmain]) Iff.rfl (by simp [hmain])
  | exitSent v => exact hi.exitSent h
  | signalled v sig => exact absurd he not_false
  | handlerSent v =>
      simp only [next, hi.frames v] at h
      cases h
  | exited v =>
      simp only [next, Option.ite_none_right_eq_some, Option.some.injEq] at h
      obtain ⟨-, rfl⟩ := h
      exact hi.setSlave (by simp) rfl rfl rfl (hi.frames v) (hi.child v) (hi.ending v) (hi.sent v)
        Iff.rfl fun _ ↦ rfl
  | masterSent =>
      simp only [next] at h
      split at h
      · cases h
      · cases h
        refine ⟨hi.frames, hi.child, hi.ending, hi.sent, fun w ↦ ?_, ?_⟩
        · rw [arrivedFrom, arrivals_snoc_of_ne (by simp)]
          exact hi.mail w
        · rw [arrivals_snoc_of_ne (by simp)]
          exact hi.master
  | masterReceived v => exact hi.masterReceived h

theorem Inv.exec (h : Exec (next cfg) (init cfg) tr s) (hC : Meets Quiet tr) : Inv cfg tr s :=
  Exec.trace_invariant (I := fun tr s ↦ Inv cfg tr s) inv_init
    (fun _ _ _ _ hi he hnext ↦ hi.step he hnext) h hC

/-! ## What the master makes of the statuses -/

theorem foldl_exitCounter (mode : ℕ) (m : Master) (statuses : List ℕ) :
    (statuses.foldl (masterReceiver mode) m).exitCounter = m.exitCounter - statuses.length := by
  induction statuses generalizing m with
  | nil => simp
  | cons status statuses ih =>
      rw [List.foldl_cons, ih]
      simp only [masterReceiver, List.length_cons]
      omega

theorem foldl_left (mode : ℕ) (m : Master) (statuses : List ℕ) (hm : m.left = false)
    (hleft : (statuses.foldl (masterReceiver mode) m).left = true) :
    (statuses.foldl (masterReceiver mode) m).exitCounter = 0 := by
  cases statuses using List.reverseRecOn with
  | nil =>
      rw [List.foldl_nil, hm] at hleft
      cases hleft
  | append_singleton statuses status =>
      rw [List.foldl_append] at hleft ⊢
      simpa [masterReceiver] using hleft

theorem foldl_exitStatus (mode : ℕ) (m : Master) (hm : m.exitService = false)
    (statuses : List ℕ) :
    (statuses.foldl (masterReceiver mode) m).exitStatus = keep mode m.exitStatus statuses := by
  induction statuses generalizing m with
  | nil => rfl
  | cons status statuses ih =>
      rw [List.foldl_cons, ih _ rfl]
      simp [masterReceiver, hm, keep]

/-- What the master makes of the statuses that it receives. Without the exit service they are
compared with 0 to begin with. -/
def final (mode : ℕ) (exitService : Bool) (status : ℕ) (statuses : List ℕ) : ℕ :=
  if exitService then keep mode (if mode = 4 then 0 else status) statuses
  else keep mode 0 (status :: statuses)

theorem foldl_eq_final (mode : ℕ) {m : Master} (hm : m.exitStatus = 0) (status : ℕ)
    (statuses : List ℕ) :
    ((status :: statuses).foldl (masterReceiver mode) m).exitStatus =
      final mode m.exitService status statuses := by
  rw [final]
  split_ifs with hservice hmode
  · rw [List.foldl_cons, foldl_exitStatus _ _ rfl]
    simp [masterReceiver, hmode]
  · rw [List.foldl_cons, foldl_exitStatus _ _ rfl]
    simp [masterReceiver, hmode, hservice]
  · rw [foldl_exitStatus _ _ (by simpa using hservice), hm]

theorem length_arrivedFrom (tr : List (State V × Event V)) (v : V) :
    (arrivedFrom tr v).length = ((arrivals tr).map Prod.fst).count v := by
  rw [arrivedFrom, List.length_map, List.count_eq_countP, List.countP_map,
    List.countP_eq_length_filter]
  rfl

/-- What has arrived from a node is its report. -/
theorem Inv.of_mem_arrivals (hi : Inv cfg tr s) {a : V × ℕ} (ha : a ∈ arrivals tr) :
    (s.slave a.1).main = .sent ∧ a.2 = report cfg (s.slave a.1) := by
  have hmem : a.2 ∈ arrivedFrom tr a.1 ++ s.up a.1 := by
    refine List.mem_append_left _ (List.mem_map.mpr ⟨a, ?_, rfl⟩)
    simpa using ha
  rw [hi.mail] at hmem
  split_ifs at hmem with hsent
  · exact ⟨hsent, List.mem_singleton.mp hmem⟩
  · cases hmem

theorem Inv.nodup_arrivals (hi : Inv cfg tr s) : ((arrivals tr).map Prod.fst).Nodup := by
  rw [List.nodup_iff_count_le_one]
  intro v
  have hlen := congrArg List.length (hi.mail v)
  rw [List.length_append, length_arrivedFrom] at hlen
  split_ifs at hlen
  · rw [List.length_singleton] at hlen
    omega
  · rw [List.length_nil] at hlen
    omega

/-- When the master has left its loop each node's report has arrived once. -/
theorem Inv.arrivals_perm (hi : Inv cfg tr s) (hleft : s.master.left = true) :
    (∀ v, ∃ status, (s.slave v).child = some status ∧ IsEnd status) ∧
      ((arrivals tr).map Prod.snd).Perm
      (cfg.nodes.toList.map fun v ↦ report cfg (s.slave v)) := by
  have hcounter : (s.master).exitCounter = 0 := by
    rw [hi.master] at hleft ⊢
    exact foldl_left _ _ _ rfl hleft
  rw [hi.master, foldl_exitCounter, List.length_map] at hcounter
  have hlength : cfg.nodes.toList.length ≤ ((arrivals tr).map Prod.fst).length := by
    simp only [init, Nodes.nnodes] at hcounter
    rw [List.length_map]
    omega
  have hsubset : (arrivals tr).map Prod.fst ⊆ cfg.nodes.toList := fun v _ ↦ cfg.nodes.mem v
  have hperm : ((arrivals tr).map Prod.fst).Perm cfg.nodes.toList :=
    (List.subperm_of_subset hi.nodup_arrivals hsubset).perm_of_length_le hlength
  refine ⟨fun v ↦ ?_, ?_⟩
  · obtain ⟨a, ha, rfl⟩ := List.mem_map.mp (hperm.mem_iff.mpr (cfg.nodes.mem v))
    obtain ⟨status, hchild⟩ := Option.ne_none_iff_exists'.mp
      (hi.sent a.1 (hi.of_mem_arrivals ha).1)
    exact ⟨status, hchild, hi.child a.1 status hchild⟩
  · have hvalues : (arrivals tr).map Prod.snd =
        ((arrivals tr).map Prod.fst).map fun v ↦ report cfg (s.slave v) := by
      rw [List.map_map]
      exact List.map_congr_left fun a ha ↦ (hi.of_mem_arrivals ha).2
    rw [hvalues]
    exact hperm.map _

/-- The exit status is made of the reports of all nodes, in some order. -/
theorem Inv.exitStatus (hi : Inv cfg tr s) (hleft : s.master.left = true) :
    ∃ status statuses,
      (status :: statuses).Perm (cfg.nodes.toList.map fun v ↦ report cfg (s.slave v)) ∧
      s.master.exitStatus = final cfg.mode cfg.services.exit status statuses := by
  obtain ⟨-, hperm⟩ := hi.arrivals_perm hleft
  cases hstatuses : (arrivals tr).map Prod.snd with
  | nil =>
      rw [hi.master, hstatuses] at hleft
      cases hleft
  | cons status statuses =>
      refine ⟨status, statuses, hstatuses ▸ hperm, ?_⟩
      rw [hi.master, hstatuses]
      exact foldl_eq_final cfg.mode rfl status statuses

end Invariant

/-! ## The exit code -/

section Code

variable {cfg : Config V} {tr : List (State V × Event V)} {s : State V}

theorem myexit_of_wifexited {status : ℕ} (h : wifexited status = true) :
    myexit status = wexitstatus status :=
  if_pos h

section Final

variable {exitService : Bool} {status : ℕ} {statuses : List ℕ}

theorem final_greatest (hall : ∀ st ∈ status :: statuses, wifexited st = true) :
    IsGreatest (codes (status :: statuses)) (myexit (final 0 exitService status statuses)) := by
  obtain ⟨hstatus, hrest⟩ := List.forall_mem_cons.mp hall
  cases exitService with
  | true =>
      obtain ⟨hmem, hle⟩ := keep_greatest hstatus hrest
      have hfinal : final 0 true status statuses = keep 0 status statuses := rfl
      rw [hfinal, myexit_of_wifexited (hall _ hmem)]
      refine ⟨⟨_, hmem, rfl⟩, ?_⟩
      rintro _ ⟨st, hst, rfl⟩
      exact hle st hst
  | false =>
      -- the status 0 to begin with is no greater than those that come
      have hkept : wifexited 0 = true := rfl
      obtain ⟨hmem, hle⟩ := keep_greatest hkept hall
      have hfinal : final 0 false status statuses = keep 0 0 (status :: statuses) := rfl
      rw [hfinal]
      rcases List.mem_cons.mp hmem with hzero | hmem
      · rw [hzero] at hle ⊢
        have hcode : wexitstatus status = 0 :=
          Nat.le_zero.mp (hle status (List.mem_cons_of_mem _ List.mem_cons_self))
        refine ⟨⟨status, List.mem_cons_self, hcode⟩, ?_⟩
        rintro _ ⟨st, hst, rfl⟩
        exact hle st (List.mem_cons_of_mem _ hst)
      · rw [myexit_of_wifexited (hall _ hmem)]
        refine ⟨⟨_, hmem, rfl⟩, ?_⟩
        rintro _ ⟨st, hst, rfl⟩
        exact hle st (List.mem_cons_of_mem _ hst)

theorem final_least (hall : ∀ st ∈ status :: statuses, wifexited st = true) :
    IsLeast (codes (status :: statuses)) (myexit (final 1 true status statuses)) := by
  obtain ⟨hstatus, hrest⟩ := List.forall_mem_cons.mp hall
  obtain ⟨hmem, hle⟩ := keep_least hstatus hrest
  have hfinal : final 1 true status statuses = keep 1 status statuses := rfl
  rw [hfinal, myexit_of_wifexited (hall _ hmem)]
  refine ⟨⟨_, hmem, rfl⟩, ?_⟩
  rintro _ ⟨st, hst, rfl⟩
  exact hle st hst

theorem final_least_off (hall : ∀ st ∈ status :: statuses, wifexited st = true) :
    myexit (final 1 false status statuses) = 0 := by
  have hkept : wifexited 0 = true := rfl
  obtain ⟨hmem, hle⟩ := keep_least hkept hall
  have hfinal : final 1 false status statuses = keep 1 0 (status :: statuses) := rfl
  have hnormal : wifexited (keep 1 0 (status :: statuses)) = true := by
    rcases List.mem_cons.mp hmem with hzero | hmem
    · rw [hzero]
      rfl
    · exact hall _ hmem
  rw [hfinal, myexit_of_wifexited hnormal]
  exact Nat.le_zero.mp (hle 0 List.mem_cons_self)

theorem final_nofail : final 4 exitService status statuses = 0 := by
  cases exitService with
  | true => exact keep_zero statuses
  | false => exact keep_zero (status :: statuses)

theorem final_signalled {mode : ℕ} (hnofail : mode ≠ 4) (habs : mode ≠ 5)
    (hex : ∃ st ∈ status :: statuses, wifexited st = false) :
    final mode exitService status statuses ∈ status :: statuses ∧
      wifexited (final mode exitService status statuses) = false := by
  obtain ⟨signalled, hfind⟩ : ∃ signalled,
      (status :: statuses).find? (fun st ↦ !wifexited st) = some signalled := by
    obtain ⟨st, hst, hnormal⟩ := hex
    rw [← Option.isSome_iff_exists, List.find?_isSome]
    exact ⟨st, hst, by simp [hnormal]⟩
  have hfinal : final mode exitService status statuses = signalled := by
    rw [final, if_neg hnofail]
    split_ifs
    · exact keep_first_signalled hnofail habs hfind
    · refine keep_first_signalled hnofail habs ?_
      rw [List.find?_cons_of_neg (by decide), hfind]
  rw [hfinal]
  exact ⟨List.mem_of_find?_eq_some hfind, by simpa using List.find?_some hfind⟩

end Final

end Code

end AxiomApps.Run.ExitCode
