import AxiomApps.Netperf.EndMessage

/-!
# RDMA writes that fail

A thread whose write fails moves the shared cursor back by the length of its piece and gives up.
If other threads have claimed pieces in the meantime, it is the end of their pieces that is
claimed again, and the piece that failed is never written.
-/

namespace AxiomApps.Netperf

open EventSystem Tiling

/-- The piece an action writes: the NIC library has taken it. -/
def written : Act → Client → Pc → List (ℕ × ℕ)
  | .transfer true, _, .transfer addr payloadSize _ => [(addr, payloadSize)]
  | .tail true, _, .tail addr payloadSize _ => [(addr, payloadSize)]
  | _, _, _ => []

/-- The bytes covered by the writes that succeeded. -/
def writtenBytes {T : Type*} (tr : List (Threads.State T Client Pc × (T × Act))) : Set ℕ :=
  {x | ∃ p ∈ Threads.log written tr, x ∈ extent p.2}

/-- In `AXN_STATE_END` the whole stream has been written, and `sent_bytes` says how much it is,
whichever writes failed. -/
def EndIsComplete (T : Type*) [DecidableEq T] (lim : PayloadLimits) (cfg : Config) : Prop :=
  ∀ (tr : List (Threads.State T Client Pc × (T × Act))) (s : Threads.State T Client Pc),
    Exec (next lim cfg) (start T cfg) tr s → s.shared.state = .ended →
    (∀ x < cfg.totalBytes, x ∈ writtenBytes tr) ∧
      s.shared.sentBytes = (writtenBytes tr).ncard

variable {lim : PayloadLimits} {cfg : Config} {a : Act} {c : Client} {l : Pc} {r : Client × Pc}

/-! ## Runs in which no write fails -/

theorem written_eq_passed (ha : a.TransferOk) : written a c l = passed a c l := by
  cases a with
  | transfer ok =>
      cases ok with
      | false => exact absurd rfl ha.1
      | true => cases l <;> rfl
  | tail ok =>
      cases ok with
      | false => exact absurd rfl ha.2
      | true => cases l <;> rfl
  | _ => rfl

theorem transferOk_of_step (h : step lim cfg a c l = some r) (hl : pending l = []) :
    a.TransferOk := by
  cases moves_of_step h with
  | transfer | tail => cases hl
  | _ => exact ⟨nofun, nofun⟩

section Runs

variable {T : Type*} {tr : List (Threads.State T Client Pc × (T × Act))}
  {s : Threads.State T Client Pc}

theorem log_written (hok : Meets (fun _ e ↦ e.2.TransferOk) tr) :
    Threads.log written tr = Threads.log passed tr := by
  rw [Threads.log, Threads.log, List.flatMap_def, List.flatMap_def]
  congr 1
  exact List.map_congr_left fun p hp ↦ by rw [written_eq_passed (hok p hp)]

theorem mem_writtenBytes (hok : Meets (fun _ e ↦ e.2.TransferOk) tr) {x : ℕ} :
    x ∈ writtenBytes tr ↔ ∃ d ∈ transfers tr, x ∈ extent d := by
  rw [transfers, ← log_written hok]
  constructor
  · rintro ⟨p, hp, hx⟩
    exact ⟨p.2, List.mem_map_of_mem hp, hx⟩
  · rintro ⟨d, hd, hx⟩
    obtain ⟨p, hp, rfl⟩ := List.mem_map.mp hd
    exact ⟨p, hp, hx⟩

variable [DecidableEq T]

/-- Once no piece is pending, all that was claimed is written. -/
theorem complete_of_sent (hexec : Exec (next lim cfg) (start T cfg) tr s)
    (hok : Meets (fun _ e ↦ e.2.TransferOk) tr) (hpending : ∀ t, pending (s.loc t) = [])
    (hsent : s.shared.sentBytes = cfg.totalBytes) :
    (∀ x < cfg.totalBytes, x ∈ writtenBytes tr) ∧
      s.shared.sentBytes = (writtenBytes tr).ncard := by
  obtain ⟨hshared, -⟩ := shared_of_exec hexec hok
  have hbytes : writtenBytes tr = Set.Iio cfg.totalBytes := by
    ext x
    have hcovers := covers_of_perm hshared.tiles (transfers_perm hexec hpending) x
    rw [mem_writtenBytes hok, hcovers, hsent]
    simp
  rw [hbytes]
  refine ⟨fun x hx ↦ hx, hsent.trans ?_⟩
  rw [← Finset.coe_range, Set.ncard_coe_finset, Finset.card_range]

/-- No other piece covers a byte of one that is pending. -/
theorem not_written_of_pending (hexec : Exec (next lim cfg) (start T cfg) tr s)
    (hok : Meets (fun _ e ↦ e.2.TransferOk) tr) {t : T} {d : ℕ × ℕ}
    (hd : d ∈ pending (s.loc t)) : d.1 < cfg.totalBytes ∧ d.1 ∉ writtenBytes tr := by
  obtain ⟨hshared, -⟩ := shared_of_exec hexec hok
  obtain ⟨hmem, hnot⟩ := not_mem_of_entriesOf hshared
    (Threads.entriesOf_taken balance (fun _ ↦ rfl) hexec t) hd
  have hclaim : d ∈ claimsOf lim cfg tr := List.mem_map_of_mem hmem
  have hpos := (hshared.lengths d hclaim).1
  have hself : d.1 ∈ extent d := ⟨le_rfl, by omega⟩
  have hrange := (hshared.tiles.covers d.1).mp ⟨d, hclaim, hself⟩
  refine ⟨hrange.2.trans_le hshared.le, ?_⟩
  rintro ⟨p, hp, hx⟩
  rw [log_written hok] at hp
  have hne : p ≠ (t, d) := by
    rintro rfl
    exact hnot (Threads.mem_entriesOf.mpr hp)
  -- different claims are disjoint
  have hpairwise := hshared.tiles.pairwise
  rw [claimsOf, List.pairwise_map] at hpairwise
  have : Std.Symm fun p q : T × ℕ × ℕ ↦ Disjoint (extent p.2) (extent q.2) :=
    ⟨fun _ _ h ↦ h.symm⟩
  have hsubperm := Threads.given_subperm_taken balance (fun _ ↦ rfl) hexec
  have hdisjoint := hpairwise.forall (hsubperm.subset hp) hmem hne
  exact Set.disjoint_left.mp hdisjoint hx hself

/-- Where nothing is ever pending, no write can fail. -/
theorem meets_of_pending
    (hidle : ∀ (tr : List (Threads.State T Client Pc × (T × Act)))
      (s : Threads.State T Client Pc), Exec (next lim cfg) (start T cfg) tr s →
      Meets (fun _ e ↦ e.2.TransferOk) tr → ∀ t, pending (s.loc t) = [])
    (hexec : Exec (next lim cfg) (start T cfg) tr s) :
    Meets (fun _ e ↦ e.2.TransferOk) tr := by
  induction hexec with
  | nil => exact meets_nil
  | @snoc tr s s' e hexec hnext ih =>
      obtain ⟨t, a⟩ := e
      obtain ⟨c', l', hstep, -⟩ := Threads.next_eq_some hnext
      exact meets_append.mpr
        ⟨ih, meets_singleton.mpr (transferOk_of_step hstep (hidle tr s hexec ih t))⟩

end Runs

/-! ## One thread -/

/-- The thread is out of the transfer. -/
def Pc.left : Pc → Bool
  | .stopping | .returned _ => true
  | _ => false

/-- The thread is out of the transfer or about to give up. -/
def Pc.givesUp : Pc → Bool
  | .rollback _ => true
  | l => l.left

theorem pending_of_left (h : l.left = true) : pending l = [] := by
  cases l with
  | transfer | tail => cases h
  | _ => rfl

theorem enter_state {rdmaSize : Option ℕ} {ok : Bool}
    (h : (enter lim cfg c rdmaSize ok).1.state = .ended) : c.state = .ended := by
  rw [enter] at h
  split at h
  · split at h
    · cases h
    · cases ok <;> cases h
  · split at h <;> exact h

/-- Only `finish` gets to `AXN_STATE_END`. -/
theorem ended_of_step (hrdma : cfg.npType = .rdma) (h : step lim cfg a c l = some r)
    (hend : r.1.state = .ended) : c.state = .ended ∨ l = .ending ∧ r.2 = .stopping := by
  cases moves_of_step h with
  | enter => exact .inl (enter_state hend)
  | begin =>
      refine .inl ?_
      simp only [begin, hrdma, if_true] at hend
      split at hend
      · cases hend
      · exact hend
  | turn _ n tokens => exact .inl ((turn_state hrdma c n tokens).symm.trans hend)
  | transfer | rollback | full | wait => exact .inl hend
  | tail ok => cases ok <;> exact .inl hend
  | finish => exact .inr ⟨rfl, rfl⟩
  | stop => exact .inl ((advance_state .ended .stop c).elim (fun heq ↦ heq.symm.trans hend) id)

theorem left_of_step (h : step lim cfg a c l = some r) (hl : l.left = true) :
    r.2.left = true := by
  cases moves_of_step h with
  | stop => rfl
  | _ => cases hl

theorem givesUp_of_step (h : step lim cfg a c l = some r) (hl : l.givesUp = true) :
    r.2.givesUp = true := by
  cases moves_of_step h with
  | rollback | stop => rfl
  | _ => cases hl

/-- A write that fails is one of the loop, and the thread gives up. -/
theorem givesUp_of_failed (hlocal : Local lim cfg c l) (ha : ¬ a.TransferOk)
    (h : step lim cfg a c l = some r) : l.left = false ∧ r.1 = c ∧ r.2.givesUp = true := by
  cases moves_of_step h with
  | transfer ok =>
      cases ok with
      | true => exact absurd ⟨nofun, nofun⟩ ha
      | false => exact ⟨rfl, rfl, rfl⟩
  | tail => exact hlocal.elim
  | _ => exact absurd ⟨nofun, nofun⟩ ha

section Alone

variable {T : Type*} [DecidableEq T] {tr : List (Threads.State T Client Pc × (T × Act))}
  {s : Threads.State T Client Pc}

/-- What holds of a thread that has no others beside it: it ends the transfer last, and not after
a write has failed. -/
structure Alone (tr : List (Threads.State T Client Pc × (T × Act)))
    (s : Threads.State T Client Pc) : Prop where
  ended : s.shared.state = .ended → ∀ t, (s.loc t).left = true
  failed : Meets (fun _ e ↦ e.2.TransferOk) tr ∨
    (s.shared.state ≠ .ended ∧ ∀ t, (s.loc t).givesUp = true)

theorem alone_of_exec [Subsingleton T] (hrdma : cfg.npType = .rdma)
    (hexec : Exec (next lim cfg) (start T cfg) tr s) : Alone tr s := by
  induction hexec with
  | nil => exact ⟨nofun, .inl meets_nil⟩
  | @snoc tr s s' e hexec hnext ih =>
      obtain ⟨t, a⟩ := e
      obtain ⟨c', l', hstep, rfl⟩ := Threads.next_eq_some hnext
      have hloc : ∀ u, Function.update s.loc t l' u = l' := by
        intro u
        rw [Subsingleton.elim u t, Function.update_self]
      constructor
      · intro hend u
        dsimp only
        rw [hloc u]
        obtain hold | ⟨-, hstop⟩ := ended_of_step hrdma hstep hend
        · exact left_of_step hstep (ih.ended hold t)
        · rw [show l' = .stopping from hstop]
          rfl
      · obtain hok | ⟨hne, hup⟩ := ih.failed
        · by_cases ha : a.TransferOk
          · exact .inl (meets_append.mpr ⟨hok, meets_singleton.mpr ha⟩)
          · obtain ⟨-, hlocal⟩ := shared_of_exec hexec hok
            obtain ⟨hleft, hsame, hgive⟩ := givesUp_of_failed (hlocal t) ha hstep
            obtain rfl : c' = s.shared := hsame
            refine .inr ⟨fun hend ↦ ?_, fun u ↦ (congrArg Pc.givesUp (hloc u)).trans hgive⟩
            rw [ih.ended hend t] at hleft
            cases hleft
        · have hgive := givesUp_of_step hstep (hup t)
          refine .inr ⟨fun hend ↦ ?_, fun u ↦ (congrArg Pc.givesUp (hloc u)).trans hgive⟩
          obtain hold | ⟨hending, -⟩ := ended_of_step hrdma hstep hend
          · exact hne hold
          · have hbefore := hup t
            rw [hending] at hbefore
            cases hbefore

theorem sent_of_left (hlocal : Local lim cfg c l) (hl : l.left = true)
    (hend : c.state = .ended) : c.sentBytes = cfg.totalBytes := by
  cases l with
  | stopping => exact hlocal.2
  | returned =>
      obtain herror | hdone := hlocal
      · rw [hend] at herror
        cases herror
      · exact hdone.2
  | _ => cases hl

theorem complete_of_alone [Subsingleton T] (hrdma : cfg.npType = .rdma)
    (hexec : Exec (next lim cfg) (start T cfg) tr s) (hend : s.shared.state = .ended) :
    (∀ x < cfg.totalBytes, x ∈ writtenBytes tr) ∧
      s.shared.sentBytes = (writtenBytes tr).ncard := by
  have halone := alone_of_exec hrdma hexec
  have hleft := halone.ended hend
  have hok := halone.failed.resolve_right fun h ↦ h.1 hend
  obtain ⟨-, hlocal⟩ := shared_of_exec hexec hok
  have hup : s.shared.SetUp := by simp [Client.SetUp, hend]
  obtain ⟨t⟩ := nonempty_of_setUp hexec hup
  exact complete_of_sent hexec hok (fun u ↦ pending_of_left (hleft u))
    (sent_of_left (hlocal t) (hleft t) hend)

end Alone

/-! ## Nothing to transfer -/

section Idle

variable {T : Type*} [DecidableEq T] {tr : List (Threads.State T Client Pc × (T × Act))}
  {s : Threads.State T Client Pc}

theorem pending_of_total (htotal : cfg.totalBytes = 0)
    (hexec : Exec (next lim cfg) (start T cfg) tr s)
    (hok : Meets (fun _ e ↦ e.2.TransferOk) tr) (t : T) : pending (s.loc t) = [] := by
  have hentries := Threads.entriesOf_taken balance (fun _ ↦ rfl) hexec t
  rw [claims_eq_nil hexec hok htotal] at hentries
  exact (List.append_eq_nil_iff.mp hentries.symm).2

theorem complete_of_total (htotal : cfg.totalBytes = 0)
    (hexec : Exec (next lim cfg) (start T cfg) tr s) :
    (∀ x < cfg.totalBytes, x ∈ writtenBytes tr) ∧
      s.shared.sentBytes = (writtenBytes tr).ncard := by
  have hok := meets_of_pending (fun _ _ ↦ pending_of_total htotal) hexec
  have hle := (shared_of_exec hexec hok).1.le
  exact complete_of_sent hexec hok (pending_of_total htotal hexec hok) (by omega)

/-- Without a transfer set up no thread gets to the loop. -/
theorem pending_of_local (hlocal : Local lim cfg c l) (hup : ¬ c.SetUp) : pending l = [] := by
  cases l with
  | transfer => exact absurd hlocal.1.1 hup
  | tail => exact hlocal.elim
  | _ => rfl

theorem not_ended_of_checkPayload (hrdma : cfg.npType = .rdma)
    (hnone : checkPayload (lim.ofType .rdma) cfg.payloadSize = none)
    (hexec : Exec (next lim cfg) (start T cfg) tr s) : s.shared.state ≠ .ended := by
  have hup : ∀ (tr : List (Threads.State T Client Pc × (T × Act)))
      (s : Threads.State T Client Pc), Exec (next lim cfg) (start T cfg) tr s →
      Meets (fun _ e ↦ e.2.TransferOk) tr → ¬ s.shared.SetUp :=
    fun _ _ hexec hok hup ↦ checkPayload_of_setUp hrdma hexec hok hup hnone
  have hok := meets_of_pending (fun tr s hexec hok t ↦
    pending_of_local ((shared_of_exec hexec hok).2 t) (hup tr s hexec hok)) hexec
  exact fun hend ↦ hup tr s hexec hok (by simp [Client.SetUp, hend])

end Idle

/-- `AXN_STATE_END` means that everything has been written, whichever writes fail, just when
there is one thread or nothing to transfer. -/
theorem endIsComplete_iff (T : Type*) [DecidableEq T] (lim : PayloadLimits) (cfg : Config)
    (hrdma : cfg.npType = .rdma) :
    EndIsComplete T lim cfg ↔ Subsingleton T ∨ cfg.totalBytes = 0 ∨
      checkPayload (lim.ofType .rdma) cfg.payloadSize = none := by
  constructor
  · intro h
    by_contra hcon
    obtain ⟨hsub, htotal, hpayload⟩ : ¬ Subsingleton T ∧ cfg.totalBytes ≠ 0 ∧
        checkPayload (lim.ofType .rdma) cfg.payloadSize ≠ none := by simpa [not_or] using hcon
    have : Nontrivial T := not_subsingleton_iff_nontrivial.mp hsub
    obtain ⟨n, hn⟩ := Option.ne_none_iff_exists'.mp hpayload
    obtain ⟨tr, s, t, u, d, hexec, hok, ⟨hloc, hstart, hfree⟩, hd⟩ :=
      exists_end_before_data (T := T) hrdma (Nat.pos_of_ne_zero htotal) hn
    have hok' : Meets (fun _ e ↦ e.2.TransferOk) tr := hok.mono fun _ _ ha ↦ ha.1
    obtain ⟨hlt, hnot⟩ := not_written_of_pending hexec hok' hd
    -- the thread at the end of the loop sends the end message
    have hnext : next lim cfg s (t, .finish) =
        some ⟨{ s.shared with state := .ended }, Function.update s.loc t .stopping⟩ := by
      simp [next, Threads.next, hloc, step, critical, hfree, advance, hstart]
    have hbyte := (h _ _ (hexec.snoc hnext) rfl).1 d.1 hlt
    obtain ⟨p, hp, hx⟩ := hbyte
    rw [Threads.log_snoc, hloc] at hp
    exact hnot ⟨p, by simpa [written] using hp, hx⟩
  · rintro (hsub | htotal | hnone) tr s hexec hend
    · exact complete_of_alone hrdma hexec hend
    · exact complete_of_total htotal hexec
    · exact absurd hend (not_ended_of_checkPayload hrdma hnone hexec)

theorem endIsComplete_unit : EndIsComplete Unit ⟨8, 8, 8, 8, 8, 8⟩ fiveBytes :=
  (endIsComplete_iff Unit ⟨8, 8, 8, 8, 8, 8⟩ fiveBytes rfl).mpr (.inl inferInstance)

/-- Two threads have claimed two bytes each when the write of the first two fails. The cursor goes
back to 2, the other thread writes bytes 2 and 3 again and the last one, and the transfer ends
with 5 bytes sent. -/
theorem failed_write_lost :
    ∃ tr s, Exec (next ⟨8, 8, 8, 8, 8, 8⟩ fiveBytes) (start Bool fiveBytes) tr s ∧
      s.shared.state = .ended ∧ s.shared.sentBytes = 5 ∧ s.loc false = .returned true ∧
      0 ∉ writtenBytes tr := by
  obtain ⟨tr, s, hexec, -, hended, hsent, hloc, hlog⟩ : ∃ tr s,
      Exec (next ⟨8, 8, 8, 8, 8, 8⟩ fiveBytes) (start Bool fiveBytes) tr s ∧
      Meets (fun _ _ ↦ True) tr ∧ s.shared.state = .ended ∧ s.shared.sentBytes = 5 ∧
      s.loc false = .returned true ∧
      Threads.log written tr = [(true, (2, 2)), (true, (2, 2)), (true, (4, 1))] :=
    Exec.exists_of_run
      [(false, .enter (some 8) true), (true, .enter none true), (false, .begin), (true, .begin),
        (false, .turn), (true, .turn), (false, .transfer false), (false, .rollback),
        (false, .stop true), (true, .transfer true), (true, .turn), (true, .transfer true),
        (true, .turn), (true, .transfer true), (true, .turn), (true, .wait true), (true, .finish)]
      (by decide +kernel)
  refine ⟨tr, s, hexec, hended, hsent, hloc, ?_⟩
  rintro ⟨p, hp, hx⟩
  rw [hlog] at hp
  simp only [List.mem_cons, List.not_mem_nil, or_false] at hp
  -- every write begins behind byte 0
  obtain rfl | rfl | rfl := hp <;> exact absurd hx.1 (by decide)

end AxiomApps.Netperf
