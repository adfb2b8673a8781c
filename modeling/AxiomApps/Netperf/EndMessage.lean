import AxiomApps.Netperf.Client

/-!
# The end message of an RDMA transfer

`AXIOM_CMD_NETPERF_END` tells the server to check the data. The thread that finds the cursor at
the end of the stream and has waited for its own writes sends it; what other threads have
claimed may not have been written.
-/

namespace AxiomApps.Netperf

open EventSystem Tiling

/-- No transfer fails: neither a write nor the wait for one. -/
def Act.AllOk (a : Act) : Prop := a.TransferOk ∧ a ≠ .wait false

/-- The pieces an action finds written: a synchronous write has returned, or asynchronous
writes were waited for. -/
def completed (cfg : Config) : Act → Client → Pc → List (ℕ × ℕ)
  | .transfer true, _, .transfer addr payloadSize _ =>
      if cfg.rdmaSync then [(addr, payloadSize)] else []
  | .tail true, _, .tail addr payloadSize _ =>
      if cfg.rdmaSync then [(addr, payloadSize)] else []
  | .wait true, _, .full _ tokens => tokens
  | .wait true, _, .wait tokens => tokens
  | _, _, _ => []

/-- What a thread has claimed and does not know to be written. -/
def outstanding (cfg : Config) : Pc → List (ℕ × ℕ)
  | .loop _ tokens => if cfg.rdmaSync then [] else tokens
  | .transfer addr payloadSize tokens | .tail addr payloadSize tokens =>
      (if cfg.rdmaSync then [] else tokens) ++ [(addr, payloadSize)]
  | .full _ tokens | .wait tokens => tokens
  | _ => []

/-- Thread `t` is about to send `AXIOM_CMD_NETPERF_END`. -/
def SendsEnd {T : Type*} (s : Threads.State T Client Pc) (t : T) : Prop :=
  s.loc t = .ending ∧ s.shared.state = .start ∧ s.shared.locked = false

/-- When the end message is sent, every claimed piece has been written, and so has every byte
of the stream. -/
def EndAfterData (T : Type*) [DecidableEq T] (lim : PayloadLimits) (cfg : Config) : Prop :=
  ∀ (tr : List (Threads.State T Client Pc × (T × Act))) (s : Threads.State T Client Pc) (t : T),
    Exec (next lim cfg) (start T cfg) tr s → Meets (fun _ e ↦ e.2.AllOk) tr → SendsEnd s t →
    (∀ p ∈ Threads.log (claimed lim cfg) tr, p ∈ Threads.log (completed cfg) tr) ∧
    ∀ x < cfg.totalBytes, ∃ p ∈ Threads.log (completed cfg) tr, x ∈ extent p.2

variable {lim : PayloadLimits} {cfg : Config} {a : Act} {c : Client} {l : Pc} {r : Client × Pc}

instance : Decidable a.AllOk := inferInstanceAs (Decidable (_ ∧ _))

instance {T : Type*} {s : Threads.State T Client Pc} {t : T} : Decidable (SendsEnd s t) :=
  inferInstanceAs (Decidable (_ ∧ _))

/-! ## Claimed, outstanding and completed -/

theorem outstanding_enter (c : Client) (rdmaSize : Option ℕ) (ok : Bool) :
    pending (enter lim cfg c rdmaSize ok).2 = [] ∧
      outstanding cfg (enter lim cfg c rdmaSize ok).2 = [] := by
  rw [enter]
  split
  · split
    · exact ⟨rfl, rfl⟩
    · cases ok <;> exact ⟨rfl, rfl⟩
  · split <;> exact ⟨rfl, rfl⟩

theorem outstanding_turn (hrdma : cfg.npType = .rdma) (c : Client) (payloadSize : ℕ)
    (tokens : List (ℕ × ℕ)) :
    outstanding cfg (turn cfg c payloadSize tokens).2 =
      (if cfg.rdmaSync then [] else tokens) ++ pending (turn cfg c payloadSize tokens).2 := by
  simp only [turn, leave, hrdma, if_true, afterWrites]
  split_ifs <;> simp_all [outstanding, pending]

theorem outstanding_transferred (hrdma : cfg.npType = .rdma) (addr payloadSize : ℕ)
    (tokens : List (ℕ × ℕ)) :
    pending (transferred cfg addr payloadSize tokens) = [] ∧
      outstanding cfg (transferred cfg addr payloadSize tokens) =
        if cfg.rdmaSync then [] else tokens ++ [(addr, payloadSize)] := by
  simp only [transferred, hrdma]
  split_ifs <;> simp_all [outstanding, pending]

theorem outstanding_afterWrites (cfg : Config) (tokens : List (ℕ × ℕ)) :
    pending (afterWrites cfg tokens) = [] ∧
      outstanding cfg (afterWrites cfg tokens) = if cfg.rdmaSync then [] else tokens := by
  rw [afterWrites]
  split_ifs <;> exact ⟨rfl, rfl⟩

theorem pending_subset_outstanding (cfg : Config) (l : Pc) : pending l ⊆ outstanding cfg l := by
  cases l with
  | transfer | tail => exact List.subset_append_right _ _
  | _ => exact List.nil_subset _

/-- What a thread has claimed it completes, in order. -/
theorem outstanding_step (hrdma : cfg.npType = .rdma) (ha : a.AllOk)
    (h : step lim cfg a c l = some r) :
    outstanding cfg l ++ pending r.2 = completed cfg a c l ++ outstanding cfg r.2 := by
  cases moves_of_step h with
  | enter _ rdmaSize ok =>
      obtain ⟨hpending, hout⟩ := @outstanding_enter lim cfg c rdmaSize ok
      rw [hpending, hout]
      rfl
  | begin => simp [begin, hrdma, outstanding, pending, completed]
  | turn _ n tokens => exact (outstanding_turn hrdma c n tokens).symm
  | transfer ok addr n tokens =>
      cases ok with
      | false => exact absurd rfl ha.1.1
      | true =>
          obtain ⟨hpending, hout⟩ := outstanding_transferred hrdma addr n tokens
          simp only [if_true, hpending, hout]
          simp only [outstanding, completed]
          split_ifs <;> simp
  | rollback | finish | stop => rfl
  | tail ok addr n tokens =>
      cases ok with
      | false => exact absurd rfl ha.1.2
      | true =>
          obtain ⟨hpending, hout⟩ := outstanding_afterWrites cfg
            (if cfg.rdmaSync then tokens else tokens ++ [(addr, n)])
          simp only [tail, if_true, hpending, hout]
          simp only [outstanding, completed]
          split_ifs <;> simp
  | full ok n tokens | wait ok tokens =>
      cases ok with
      | false => exact absurd rfl ha.2
      | true => simp [outstanding, pending, completed]

theorem balance_completed (hrdma : cfg.npType = .rdma) (a : Act) (c : Client) (l : Pc)
    (c' : Client) (l' : Pc) (ha : a.AllOk) (h : step lim cfg a c l = some (c', l')) :
    outstanding cfg l ++ claimed lim cfg a c l = completed cfg a c l ++ outstanding cfg l' := by
  rw [claimed_eq_pending h]
  exact outstanding_step hrdma ha h

section Runs

variable {T : Type*} [DecidableEq T] {tr : List (Threads.State T Client Pc × (T × Act))}
  {s : Threads.State T Client Pc}

theorem entriesOf_claimed (hrdma : cfg.npType = .rdma)
    (hexec : Exec (next lim cfg) (start T cfg) tr s) (hok : Meets (fun _ e ↦ e.2.AllOk) tr)
    (t : T) : Threads.entriesOf t (Threads.log (claimed lim cfg) tr) =
      Threads.entriesOf t (Threads.log (completed cfg) tr) ++ outstanding cfg (s.loc t) :=
  Threads.entriesOf_taken_of_meets (balance_completed hrdma) (fun _ ↦ rfl) hexec hok t

theorem shared_of_allOk (hexec : Exec (next lim cfg) (start T cfg) tr s)
    (hok : Meets (fun _ e ↦ e.2.AllOk) tr) :
    Shared lim cfg (claimsOf lim cfg tr) s.shared ∧ ∀ t, Local lim cfg s.shared (s.loc t) :=
  shared_of_exec hexec (hok.mono fun _ _ h ↦ h.1)

/-- Once nothing is outstanding, every claimed piece has been written. -/
theorem completed_of_outstanding (hrdma : cfg.npType = .rdma)
    (hexec : Exec (next lim cfg) (start T cfg) tr s) (hok : Meets (fun _ e ↦ e.2.AllOk) tr)
    (hnone : ∀ t, outstanding cfg (s.loc t) = []) {p : T × (ℕ × ℕ)}
    (hp : p ∈ Threads.log (claimed lim cfg) tr) : p ∈ Threads.log (completed cfg) tr := by
  have hmem := Threads.mem_entriesOf.mpr hp
  rw [entriesOf_claimed hrdma hexec hok, hnone, List.append_nil] at hmem
  exact Threads.mem_entriesOf.mp hmem

/-- A thread claims a piece once: what it still has to do is not among what it has done. -/
theorem not_mem_of_entriesOf (hshared : Shared lim cfg (claimsOf lim cfg tr) s.shared) {t : T}
    {done left : List (ℕ × ℕ)} {d : ℕ × ℕ}
    (hentries : Threads.entriesOf t (Threads.log (claimed lim cfg) tr) = done ++ left)
    (hd : d ∈ left) : (t, d) ∈ Threads.log (claimed lim cfg) tr ∧ d ∉ done := by
  have hclaimed : d ∈ Threads.entriesOf t (Threads.log (claimed lim cfg) tr) := by
    rw [hentries]
    exact List.mem_append_right _ hd
  refine ⟨Threads.mem_entriesOf.mp hclaimed, fun hdone ↦ ?_⟩
  have hsub : (Threads.entriesOf t (Threads.log (claimed lim cfg) tr)).Sublist
      (claimsOf lim cfg tr) := List.filter_sublist.map _
  have hdisjoint := hshared.tiles.pairwise.sublist hsub
  rw [hentries] at hdisjoint
  have hself := (List.pairwise_append.mp hdisjoint).2.2 d hdone d hd
  obtain ⟨hpos, -⟩ := hshared.lengths d (hsub.subset hclaimed)
  have hmem : d.1 ∈ extent d := ⟨le_rfl, by omega⟩
  exact Set.disjoint_left.mp hself hmem hmem

/-- A piece that is outstanding has not been written: it was claimed once. -/
theorem not_completed_of_outstanding (hrdma : cfg.npType = .rdma)
    (hexec : Exec (next lim cfg) (start T cfg) tr s) (hok : Meets (fun _ e ↦ e.2.AllOk) tr)
    {t : T} {d : ℕ × ℕ} (hd : d ∈ outstanding cfg (s.loc t)) :
    (t, d) ∈ Threads.log (claimed lim cfg) tr ∧ (t, d) ∉ Threads.log (completed cfg) tr := by
  obtain ⟨hshared, -⟩ := shared_of_allOk hexec hok
  obtain ⟨hclaimed, hnot⟩ :=
    not_mem_of_entriesOf hshared (entriesOf_claimed hrdma hexec hok t) hd
  exact ⟨hclaimed, fun hcompleted ↦ hnot (Threads.mem_entriesOf.mpr hcompleted)⟩

end Runs

/-! ## A thread that runs alone -/

section Solo

variable (lim)

/-- What a write leads back to, at the latest after a wait. -/
theorem reaches_transferred (cfg : Config) (c : Client) (addr n : ℕ) (tokens : List (ℕ × ℕ)) :
    ∃ tokens', Reaches (Threads.solo (step lim cfg)) (fun _ a ↦ a.AllOk)
      (c, .transfer addr n tokens) (c, .loop n tokens') := by
  have hwrite : Reaches (Threads.solo (step lim cfg)) (fun _ a ↦ a.AllOk)
      (c, .transfer addr n tokens) (c, transferred cfg addr n tokens) :=
    .single (e := .transfer true) (by decide) rfl
  simp only [transferred] at hwrite
  split_ifs at hwrite
  · exact ⟨[], hwrite.step (e := .wait true) (by decide) rfl⟩
  · exact ⟨_, hwrite⟩
  · exact ⟨_, hwrite⟩

/-- One turn of the loop: a piece is claimed and written. -/
theorem reaches_loop (hunlocked : c.locked = false) (hlt : c.sentBytes < cfg.totalBytes) {n : ℕ}
    (hn : 0 < n) (tokens : List (ℕ × ℕ)) :
    ∃ c' n' tokens', Reaches (Threads.solo (step lim cfg)) (fun _ a ↦ a.AllOk)
        (c, .loop n tokens) (c', .loop n' tokens') ∧
      c'.state = c.state ∧ c'.locked = false ∧ 0 < n' ∧ c.sentBytes < c'.sentBytes ∧
      c'.sentBytes ≤ cfg.totalBytes := by
  have htotal := cfg.totalBytes_lt
  obtain ⟨m, hm⟩ : ∃ m, m = if cfg.totalBytes - c.sentBytes < n then cfg.totalBytes - c.sentBytes
    else n := ⟨_, rfl⟩
  have hpos : 0 < m := by
    rw [hm]
    split_ifs <;> omega
  have hle : c.sentBytes + m ≤ cfg.totalBytes := by
    rw [hm]
    split_ifs <;> omega
  have hsent : add64 c.sentBytes m = c.sentBytes + m := add64_of_lt (by omega)
  obtain ⟨tokens', hwrite⟩ := reaches_transferred lim cfg
    { c with totalPackets := add64 c.totalPackets 1, sentBytes := c.sentBytes + m }
    c.sentBytes m tokens
  refine ⟨_, m, tokens', Reaches.trans (.single (e := .turn) (by decide) ?_) hwrite, rfl,
    hunlocked, hpos, ?_, hle⟩
  · simp [Threads.solo, step, critical, hunlocked, turn, hlt, ← hm, hsent]
  · exact Nat.lt_add_of_pos_right hpos

/-- At the end of the stream only the wait for its own writes is left to a thread. -/
theorem reaches_ending_of_eq (hrdma : cfg.npType = .rdma) (hunlocked : c.locked = false)
    (heq : c.sentBytes = cfg.totalBytes) (n : ℕ) (tokens : List (ℕ × ℕ)) :
    Reaches (Threads.solo (step lim cfg)) (fun _ a ↦ a.AllOk) (c, .loop n tokens)
      (c, .ending) := by
  have hleave : Reaches (Threads.solo (step lim cfg)) (fun _ a ↦ a.AllOk) (c, .loop n tokens)
      (c, afterWrites cfg tokens) := by
    refine .single (e := .turn) (by decide) ?_
    simp [Threads.solo, step, critical, hunlocked, turn, heq, leave, hrdma,
      sub64_self cfg.totalBytes_lt]
  rw [afterWrites] at hleave
  split_ifs at hleave
  · exact hleave
  · exact hleave.step (e := .wait true) (by decide) rfl

/-- A thread in the loop, alone, gets to where it sends the end message. -/
theorem reaches_ending (hrdma : cfg.npType = .rdma) (hunlocked : c.locked = false)
    (hle : c.sentBytes ≤ cfg.totalBytes) {n : ℕ} (hn : 0 < n) (tokens : List (ℕ × ℕ)) :
    ∃ c', Reaches (Threads.solo (step lim cfg)) (fun _ a ↦ a.AllOk) (c, .loop n tokens)
        (c', .ending) ∧ c'.state = c.state ∧ c'.locked = false := by
  induction hk : cfg.totalBytes - c.sentBytes using Nat.strong_induction_on
    generalizing c n tokens with
  | _ k ih =>
      rcases hle.lt_or_eq with hlt | heq
      · obtain ⟨c₁, n₁, tokens₁, hreach, hstate, hunlocked₁, hn₁, hmore, hle₁⟩ :=
          reaches_loop lim hunlocked hlt hn tokens
        obtain ⟨c₂, hreach₂, hstate₂, hunlocked₂⟩ :=
          ih (cfg.totalBytes - c₁.sentBytes) (by omega) hunlocked₁ hle₁ hn₁ tokens₁ rfl
        exact ⟨c₂, hreach.trans hreach₂, hstate₂.trans hstate, hunlocked₂⟩
      · exact ⟨c, reaches_ending_of_eq lim hrdma hunlocked heq n tokens, rfl, hunlocked⟩

/-- The first thread sets the transfer up and claims the first piece. -/
theorem reaches_first_claim (hrdma : cfg.npType = .rdma) {n : ℕ}
    (hcheck : checkPayload (lim.ofType .rdma) cfg.payloadSize = some n)
    (htotal : 0 < cfg.totalBytes) :
    ∃ c m, Reaches (Threads.solo (step lim cfg)) (fun _ a ↦ a.AllOk)
        (⟨.null, cfg.payloadSize, 0, 0, false⟩, .entry) (c, .transfer 0 m []) ∧
      c.state = .start ∧ c.locked = false ∧ c.payloadSize = n ∧
      c.sentBytes ≤ cfg.totalBytes := by
  have hlt := cfg.totalBytes_lt
  obtain ⟨m, hm⟩ : ∃ m, m = if cfg.totalBytes < n then cfg.totalBytes else n := ⟨_, rfl⟩
  have hle : m ≤ cfg.totalBytes := by
    rw [hm]
    split_ifs <;> omega
  have hsent : add64 0 m = m := (add64_of_lt (by omega)).trans (Nat.zero_add m)
  have henter : Threads.solo (step lim cfg) (⟨.null, cfg.payloadSize, 0, 0, false⟩, .entry)
      (.enter (some cfg.totalBytes) true) = some (⟨.init, n, 0, 0, false⟩, .run) := by
    simp [Threads.solo, step, critical, enter, initType, hrdma, rdmaInit, hcheck]
  have hbegin : Threads.solo (step lim cfg) (⟨.init, n, 0, 0, false⟩, .run) .begin =
      some (⟨.start, n, 0, 0, false⟩, .loop n []) := by
    simp [Threads.solo, step, critical, begin, hrdma]
  have hturn : Threads.solo (step lim cfg) (⟨.start, n, 0, 0, false⟩, .loop n []) .turn =
      some (⟨.start, n, add64 0 1, m, false⟩, .transfer 0 m []) := by
    simp [Threads.solo, step, critical, turn, htotal, ← hm, hsent]
  have hok : (Act.enter (some cfg.totalBytes) true).AllOk := by simp [Act.AllOk, Act.TransferOk]
  refine ⟨⟨.start, n, add64 0 1, m, false⟩, m, ?_, rfl, rfl, rfl, hle⟩
  have hrun := (Reaches.single (C := fun _ a ↦ Act.AllOk a) hok henter).step (by decide) hbegin
  exact hrun.step (by decide) hturn

/-- Another thread then writes all the rest. -/
theorem reaches_ending_of_start (hrdma : cfg.npType = .rdma) (hstart : c.state = .start)
    (hunlocked : c.locked = false) (hpos : 0 < c.payloadSize)
    (hle : c.sentBytes ≤ cfg.totalBytes) :
    ∃ c', Reaches (Threads.solo (step lim cfg)) (fun _ a ↦ a.AllOk) (c, .entry) (c', .ending) ∧
      c'.state = .start ∧ c'.locked = false := by
  have henter : Threads.solo (step lim cfg) (c, .entry) (.enter none true) = some (c, .run) := by
    simp [Threads.solo, step, critical, hunlocked, enter, hstart]
  have hbegin : Threads.solo (step lim cfg) (c, .run) .begin =
      some (c, .loop c.payloadSize []) := by
    simp [Threads.solo, step, critical, hunlocked, begin, hstart, hrdma]
  obtain ⟨c', hreach, hstate, hunlocked'⟩ := reaches_ending lim hrdma hunlocked hle hpos []
  exact ⟨c', ((Reaches.single (by decide) henter).step (by decide) hbegin).trans hreach,
    hstate.trans hstart, hunlocked'⟩

end Solo

/-! ## When the end message comes after the data -/

theorem advance_state (x y : ClientState) (c : Client) :
    (advance x y c).state = c.state ∨ c.state = x := by
  rw [advance]
  split_ifs with hx
  · exact .inr hx
  · exact .inl rfl

theorem turn_state (hrdma : cfg.npType = .rdma) (c : Client) (n : ℕ) (tokens : List (ℕ × ℕ)) :
    (turn cfg c n tokens).1.state = c.state := by
  simp only [turn, leave, hrdma, if_true]
  split_ifs <;> rfl

theorem checkPayload_of_enter (hrdma : cfg.npType = .rdma) {rdmaSize : Option ℕ} {ok : Bool}
    (hgiven : c.state = .null → c.payloadSize = cfg.payloadSize)
    (hup : (enter lim cfg c rdmaSize ok).1.SetUp) :
    c.SetUp ∨ checkPayload (lim.ofType .rdma) cfg.payloadSize ≠ none := by
  by_cases hnull : c.state = .null
  · refine .inr fun hnone ↦ hup.2 ?_
    simp [enter, hnull, initType, hrdma, rdmaInit, hgiven hnull, hnone]
  · refine .inl ?_
    rw [enter, if_neg hnull] at hup
    split_ifs at hup <;> exact hup

/-- Only `enter` sets a transfer up, after the check of the payload size. -/
theorem setUp_of_step (hrdma : cfg.npType = .rdma) (h : step lim cfg a c l = some r)
    (hgiven : c.state = .null → c.payloadSize = cfg.payloadSize) (hup : r.1.SetUp) :
    c.SetUp ∨ checkPayload (lim.ofType .rdma) cfg.payloadSize ≠ none := by
  have hsame : r.1.state = c.state → c.SetUp := fun hst ↦ by rwa [Client.SetUp, ← hst]
  have hat : ∀ x : ClientState, x ≠ .null → x ≠ .error → c.state = x → c.SetUp :=
    fun x hnull herror hx ↦ ⟨hx ▸ hnull, hx ▸ herror⟩
  cases moves_of_step h with
  | enter => exact checkPayload_of_enter hrdma hgiven hup
  | begin =>
      refine .inl ?_
      by_cases hinit : c.state = .init
      · exact hat .init (by decide) (by decide) hinit
      · simpa only [begin, hrdma, if_true, hinit, if_false] using hup
  | turn _ n tokens => exact .inl (hsame (turn_state hrdma c n tokens))
  | transfer | rollback | full | wait => exact .inl hup
  | tail ok => cases ok <;> exact .inl hup
  | finish =>
      exact .inl ((advance_state .start .ended c).elim hsame (hat .start (by decide) (by decide)))
  | stop =>
      exact .inl ((advance_state .ended .stop c).elim hsame (hat .ended (by decide) (by decide)))

section Runs

variable {T : Type*} [DecidableEq T] {tr : List (Threads.State T Client Pc × (T × Act))}
  {s : Threads.State T Client Pc}

/-- A transfer that is under way has passed the check of the payload size. -/
theorem checkPayload_of_setUp (hrdma : cfg.npType = .rdma)
    (hexec : Exec (next lim cfg) (start T cfg) tr s) (hok : Meets (fun _ e ↦ e.2.TransferOk) tr)
    (hup : s.shared.SetUp) : checkPayload (lim.ofType .rdma) cfg.payloadSize ≠ none := by
  induction hexec with
  | nil => exact absurd rfl hup.1
  | @snoc tr s s' e hexec hnext ih =>
      have htr := (meets_append.mp hok).1
      obtain ⟨hshared, -⟩ := shared_of_exec hexec htr
      obtain ⟨t, a⟩ := e
      obtain ⟨c, l, hstep, rfl⟩ := Threads.next_eq_some hnext
      exact (setUp_of_step hrdma hstep hshared.given hup).elim (ih htr) id

theorem claims_eq_nil (hexec : Exec (next lim cfg) (start T cfg) tr s)
    (hok : Meets (fun _ e ↦ e.2.TransferOk) tr) (htotal : cfg.totalBytes = 0) :
    Threads.log (claimed lim cfg) tr = [] := by
  obtain ⟨hshared, -⟩ := shared_of_exec hexec hok
  have hlength := hshared.tiles.length_le fun d hd ↦ (hshared.lengths d hd).1
  have hle := hshared.le
  have hnil : claimsOf lim cfg tr = [] := List.eq_nil_of_length_eq_zero (by omega)
  exact List.map_eq_nil_iff.mp hnil

/-- Once the cursor is at the end of the stream, the claims cover it. -/
theorem covered_of_completed (hexec : Exec (next lim cfg) (start T cfg) tr s)
    (hok : Meets (fun _ e ↦ e.2.AllOk) tr) {t : T} (hend : s.loc t = .ending)
    (hall : ∀ p ∈ Threads.log (claimed lim cfg) tr, p ∈ Threads.log (completed cfg) tr) {x : ℕ}
    (hx : x < cfg.totalBytes) : ∃ p ∈ Threads.log (completed cfg) tr, x ∈ extent p.2 := by
  obtain ⟨hshared, hlocal⟩ := shared_of_allOk hexec hok
  have hl := hlocal t
  rw [hend] at hl
  obtain ⟨d, hd, hxd⟩ := (hshared.tiles.covers x).mpr ⟨Nat.zero_le x, by rwa [hl.2]⟩
  obtain ⟨p, hp, rfl⟩ := List.mem_map.mp hd
  exact ⟨p, hall p hp, hxd⟩

/-- Two threads: one claims the first piece, the other goes on to the end message. -/
theorem exists_end_before_data [Nontrivial T] (hrdma : cfg.npType = .rdma)
    (htotal : 0 < cfg.totalBytes) {n : ℕ}
    (hcheck : checkPayload (lim.ofType .rdma) cfg.payloadSize = some n) :
    ∃ (tr : List (Threads.State T Client Pc × (T × Act))) (s : Threads.State T Client Pc)
      (t u : T) (d : ℕ × ℕ), Exec (next lim cfg) (start T cfg) tr s ∧
      Meets (fun _ e ↦ e.2.AllOk) tr ∧ SendsEnd s t ∧ d ∈ pending (s.loc u) := by
  obtain ⟨u, t, hut⟩ := exists_pair_ne T
  obtain ⟨c₁, m, hfirst, hstart, hunlocked, hpayload, hle⟩ :=
    reaches_first_claim lim hrdma hcheck htotal
  obtain ⟨-, hpos⟩ := checkPayload_eq_some hcheck
  obtain ⟨c₂, hsecond, hstart₂, hunlocked₂⟩ :=
    reaches_ending_of_start lim hrdma hstart hunlocked (hpayload ▸ hpos) hle
  have hreach₁ : Reaches (next lim cfg) (fun _ e ↦ e.2.AllOk) (start T cfg)
      ⟨c₁, Function.update (fun _ ↦ .entry) u (.transfer 0 m [])⟩ :=
    Threads.reaches_of_solo (s := start T cfg) hfirst
  have hreach₂ : Reaches (next lim cfg) (fun _ e ↦ e.2.AllOk)
      ⟨c₁, Function.update (fun _ ↦ .entry) u (.transfer 0 m [])⟩
      ⟨c₂, Function.update (Function.update (fun _ ↦ .entry) u (.transfer 0 m [])) t .ending⟩ := by
    refine Threads.reaches_of_solo (p := (c₂, Pc.ending)) ?_
    simpa only [Function.update_of_ne hut.symm] using hsecond
  obtain ⟨tr, hexec, hok⟩ := hreach₁.trans hreach₂
  refine ⟨tr, _, t, u, (0, m), hexec, hok, ⟨Function.update_self .., hstart₂, hunlocked₂⟩, ?_⟩
  simp only [Function.update_of_ne hut, Function.update_self]
  exact List.mem_singleton_self _

end Runs

/-- The end message comes after the data, in every run in which no transfer fails, just when
there is one thread or nothing to transfer. -/
theorem endAfterData_iff (T : Type*) [DecidableEq T] (lim : PayloadLimits) (cfg : Config)
    (hrdma : cfg.npType = .rdma) :
    EndAfterData T lim cfg ↔ Subsingleton T ∨ cfg.totalBytes = 0 ∨
      checkPayload (lim.ofType .rdma) cfg.payloadSize = none := by
  constructor
  · intro h
    by_contra hcon
    obtain ⟨hsub, htotal, hpayload⟩ : ¬ Subsingleton T ∧ cfg.totalBytes ≠ 0 ∧
        checkPayload (lim.ofType .rdma) cfg.payloadSize ≠ none := by simpa [not_or] using hcon
    have : Nontrivial T := not_subsingleton_iff_nontrivial.mp hsub
    obtain ⟨n, hn⟩ := Option.ne_none_iff_exists'.mp hpayload
    obtain ⟨tr, s, t, u, d, hexec, hok, hend, hd⟩ :=
      exists_end_before_data (T := T) hrdma (Nat.pos_of_ne_zero htotal) hn
    obtain ⟨hclaimed, hnot⟩ :=
      not_completed_of_outstanding hrdma hexec hok (pending_subset_outstanding cfg _ hd)
    exact hnot ((h tr s t hexec hok hend).1 _ hclaimed)
  · intro h tr s t hexec hok hend
    have hok' : Meets (fun _ e ↦ e.2.TransferOk) tr := hok.mono fun _ _ ha ↦ ha.1
    have hall : ∀ p ∈ Threads.log (claimed lim cfg) tr, p ∈ Threads.log (completed cfg) tr := by
      rcases h with hsub | htotal | hnone
      · intro p hp
        refine completed_of_outstanding hrdma hexec hok (fun u ↦ ?_) hp
        rw [Subsingleton.elim u t, hend.1]
        rfl
      · simp [claims_eq_nil hexec hok' htotal]
      · have hup : s.shared.SetUp := by simp [Client.SetUp, hend.2.1]
        exact absurd hnone (checkPayload_of_setUp hrdma hexec hok' hup)
    exact ⟨hall, fun x hx ↦ covered_of_completed hexec hok hend.1 hall hx⟩

/-- One thread writes the five bytes. -/
theorem endAfterData_unit : EndAfterData Unit ⟨8, 8, 8, 8, 8, 8⟩ fiveBytes :=
  (endAfterData_iff Unit ⟨8, 8, 8, 8, 8, 8⟩ fiveBytes rfl).mpr (.inl inferInstance)

/-- Two threads: one has claimed the first two bytes and not written them when the other is
about to send the end message. -/
theorem end_before_data_twoThreads :
    ∃ tr s, Exec (next ⟨8, 8, 8, 8, 8, 8⟩ fiveBytes) (start Bool fiveBytes) tr s ∧
      Meets (fun _ e ↦ e.2.AllOk) tr ∧ SendsEnd s true ∧
      (false, (0, 2)) ∈ Threads.log (claimed ⟨8, 8, 8, 8, 8, 8⟩ fiveBytes) tr ∧
      (false, (0, 2)) ∉ Threads.log (completed fiveBytes) tr :=
  Exec.exists_of_run
    [(false, .enter (some 8) true), (true, .enter none true), (false, .begin), (true, .begin),
      (false, .turn), (true, .turn), (true, .transfer true), (true, .turn), (true, .transfer true),
      (true, .turn), (true, .wait true)] (by decide +kernel)

end AxiomApps.Netperf
