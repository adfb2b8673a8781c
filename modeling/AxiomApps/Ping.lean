import AxiomApps.Lib.Execution

/-!
# axiom-ping and axiom_pong

One thread of axiom-ping asks and the main program counts the replies, each with a number of
its own of how many are left. The daemon of the other board turns a request round. Replies of
other programs come to the same port, and are told apart by a random number.
-/

namespace AxiomApps.Ping

open EventSystem

/-! ## The programs -/

inductive Command
  | ping
  | pong
  | other (code : UInt8)
  deriving DecidableEq, Repr

structure Payload where
  command : Command
  uniqueId : UInt32
  seqNum : ℕ
  timestamp : UInt64
  deriving DecidableEq, Repr

def axiomPong (p : Payload) : Option Payload :=
  if p.command = .ping then some { p with command := .pong } else none

/-- `-c` sets the number of messages; without it there is no end of them. -/
structure Config where
  count : Option UInt32
  uniqueId : UInt32

def Config.numPing (cfg : Config) : UInt32 := cfg.count.getD 1

def Config.accepts (cfg : Config) (p : Payload) : Bool :=
  p.command = .pong ∧ p.uniqueId = cfg.uniqueId

inductive Sender
  | testing
  | sending
  | ended
  deriving DecidableEq, Repr

/-- `sent_packets` and `recv_packets`, and the times of the replies. -/
structure Stats where
  sent : Int32
  received : Int32
  sum : UInt64
  min : UInt64
  max : UInt64
  deriving DecidableEq, Repr

inductive Main
  | testing
  | receiving
  | joining
  | reported (stats : Stats)
  | failed
  deriving DecidableEq, Repr

/-- `toSend` and `toReceive` are the two `num_ping`, of type `int` and `unsigned int`. `tries`,
`asked` and `counted` record how often a request was counted as sent, which have been sent, and
which replies have been counted, with the time they came. -/
structure State where
  sender : Sender
  toSend : ℤ
  seqNum : ℕ
  main : Main
  toReceive : ℕ
  stats : Stats
  sigint : Bool
  requests : List Payload
  mail : List Payload
  tries : ℕ
  asked : List Payload
  counted : List (Payload × UInt64)

inductive SendResult
  | ok
  | notReach
  | error
  deriving DecidableEq, Repr

inductive Event
  | senderTested
  | sent (result : SendResult) (start : UInt64)
  | senderFailed
  | mainTested
  | received (finish : UInt64)
  | interrupted
  | mainFailed
  | joined
  | sigint
  | answered
  | dropped
  | foreign (p : Payload)
  deriving DecidableEq, Repr

/-- The statistics after a reply. -/
def Stats.add (st : Stats) (diff : UInt64) : Stats :=
  { st with
    received := st.received + 1
    sum := st.sum + diff
    min := if diff < st.min then diff else st.min
    max := if diff > st.max then diff else st.max }

/-- One turn of the loop of `sender_body`. -/
def send (cfg : Config) (s : State) (result : SendResult) (start : UInt64) : State :=
  let p : Payload := ⟨.ping, cfg.uniqueId, s.seqNum + 1, start⟩
  let s := { s with seqNum := s.seqNum + 1 }
  match result with
  | .error => { s with sender := .ended }
  | _ =>
      { s with
        requests := if result = .ok then s.requests ++ [p] else s.requests
        tries := s.tries + 1
        asked := if result = .ok then s.asked ++ [p] else s.asked
        stats := { s.stats with sent := s.stats.sent + 1 }
        toSend := if cfg.count.isSome then s.toSend - 1 else s.toSend
        sender := .testing }

/-- What `main` does with a message it has received. -/
def receive (cfg : Config) (s : State) (p : Payload) (finish : UInt64) : State :=
  if s.sigint then { s with main := .joining }
  else if cfg.accepts p then
    { s with
      stats := s.stats.add (finish - p.timestamp)
      counted := s.counted ++ [(p, finish)]
      toReceive := if cfg.count.isSome then s.toReceive - 1 else s.toReceive
      main := .testing }
  else s

/-- `axiom_recv_raw` can be interrupted once the signal has come. -/
def next (cfg : Config) (s : State) : Event → Option State
  | .senderTested =>
      if s.sender = .testing then
        some { s with sender := if ¬ s.sigint ∧ 0 < s.toSend then .sending else .ended }
      else none
  | .sent result start => if s.sender = .sending then some (send cfg s result start) else none
  | .senderFailed => if s.sender = .sending then some { s with sender := .ended } else none
  | .mainTested =>
      if s.main = .testing then
        some { s with main := if ¬ s.sigint ∧ 0 < s.toReceive then .receiving else .joining }
      else none
  | .received finish =>
      match s.main, s.mail with
      | .receiving, p :: mail => some (receive cfg { s with mail := mail } p finish)
      | _, _ => none
  | .interrupted =>
      if s.main = .receiving ∧ s.sigint then some { s with main := .joining } else none
  | .mainFailed => if s.main = .receiving then some { s with main := .failed } else none
  | .joined =>
      if s.main = .joining ∧ s.sender = .ended then some { s with main := .reported s.stats }
      else none
  | .sigint => some { s with sigint := true }
  | .answered =>
      match s.requests with
      | p :: requests =>
          some { s with requests := requests, mail := s.mail ++ (axiomPong p).toList }
      | [] => none
  | .dropped => some { s with requests := s.requests.tail }
  | .foreign p => some { s with mail := s.mail ++ [p] }

/-- The `int` that an `unsigned int` becomes. -/
def toInt (n : UInt32) : ℤ := n.toBitVec.toInt

theorem toInt_eq (n : UInt32) :
    toInt n = if n.toNat < 2 ^ 31 then (n.toNat : ℤ) else n.toNat - 2 ^ 32 := by
  have h : toInt n = if 2 * n.toNat < 2 ^ 32 then (n.toNat : ℤ) else n.toNat - 2 ^ 32 :=
    BitVec.toInt_eq_toNat_cond n.toBitVec
  rw [h]
  split_ifs <;> omega

def init (cfg : Config) : State where
  sender := .testing
  toSend := toInt cfg.numPing
  seqNum := 0
  main := .testing
  toReceive := cfg.numPing.toNat
  stats := ⟨0, 0, 0, -1, 0⟩
  sigint := false
  requests := []
  mail := []
  tries := 0
  asked := []
  counted := []

def Config.Disturbs (cfg : Config) : Event → Bool
  | .foreign p => cfg.accepts p
  | _ => false

/-- No other reply carries the number of this run. -/
def Fresh (cfg : Config) (_ : State) (e : Event) : Prop := cfg.Disturbs e = false

instance (cfg : Config) (s : State) (e : Event) : Decidable (Fresh cfg s e) :=
  inferInstanceAs (Decidable (cfg.Disturbs e = false))

/-! ## The statistics -/

def diffs (s : State) : List UInt64 := s.counted.map fun r ↦ r.2 - r.1.timestamp

/-- The statistics of a list of times. -/
structure Stats.Of (st : Stats) (l : List UInt64) : Prop where
  received : st.received = Int32.ofNat l.length
  sum : st.sum.toNat = (l.map UInt64.toNat).sum % 2 ^ 64
  bounds : ∀ d ∈ l, st.min ≤ d ∧ d ≤ st.max
  attained : (l = [] ∧ st.min = -1 ∧ st.max = 0) ∨ (st.min ∈ l ∧ st.max ∈ l)

theorem Stats.Of.add {st : Stats} {l : List UInt64} (h : st.Of l) (d : UInt64) :
    (st.add d).Of (l ++ [d]) where
  received := by
    rw [List.length_append, Int32.ofNat_add, ← h.received]
    rfl
  sum := by simp [Stats.add, h.sum]
  bounds := by
    intro x hx
    simp only [Stats.add]
    obtain hx | rfl := List.mem_append.mp hx |>.imp_right List.mem_singleton.mp
    · have := h.bounds x hx
      split_ifs <;> grind
    · split_ifs <;> grind
  attained := by
    right
    simp only [Stats.add]
    rcases h.attained with ⟨rfl, hmin, hmax⟩ | ⟨hmin, hmax⟩
    · -- the first time is both the least and the greatest, also where it is -1 or 0
      have hle : d.toNat < 2 ^ 64 := d.toNat_lt
      have htop : (-1 : UInt64).toNat = 2 ^ 64 - 1 := rfl
      simp only [hmin, hmax, List.nil_append, List.mem_singleton, ite_eq_left_iff, gt_iff_lt,
        UInt64.lt_iff_toNat_lt, ← UInt64.toNat_inj, UInt64.toNat_zero]
      constructor <;> omega
    · split_ifs <;> simp [*]

/-! ## What holds in every run -/

def reply (p : Payload) : Payload := { p with command := .pong }

structure Inv (cfg : Config) (s : State) : Prop where
  requests : ∀ p ∈ s.requests, p.command = .ping ∧ p.uniqueId = cfg.uniqueId
  replies : (s.counted.map Prod.fst ++ s.mail.filter cfg.accepts ++ s.requests.map reply).Sublist
    (s.asked.map reply)
  pings : ∀ p ∈ s.asked, p.command = .ping
  asked : s.asked.length ≤ s.tries
  sent : s.stats.sent = Int32.ofNat s.tries
  stats : s.stats.Of (diffs s)
  sending : s.sender = .sending → 0 < s.toSend
  toSend : ∀ n, cfg.count = some n → s.toSend + s.tries = toInt n ∧
    (0 < s.tries → 0 ≤ s.toSend)
  receiving : s.main = .receiving → 0 < s.toReceive
  toReceive : s.toReceive + (if cfg.count.isSome then s.counted.length else 0) = cfg.numPing.toNat
  left : s.main = .joining ∨ (∃ stats, s.main = .reported stats) → s.sigint = true ∨
    s.toReceive = 0
  reported : ∀ stats, s.main = .reported stats → stats = s.stats ∧ s.sender = .ended

variable {cfg : Config} {s s' : State} {tr : List (State × Event)}

theorem inv_init : Inv cfg (init cfg) where
  requests := by simp [init]
  replies := by simp [init]
  pings := by simp [init]
  asked := by simp [init]
  sent := rfl
  stats := ⟨rfl, rfl, by simp [init, diffs], .inl ⟨rfl, rfl, rfl⟩⟩
  sending := by simp [init]
  toSend n hn := by simp [init, Config.numPing, hn]
  receiving := by simp [init]
  toReceive := by simp [init]
  left := by simp [init]
  reported := by simp [init]

namespace Inv

theorem countSent (hi : Inv cfg s) (hsender : s.sender = .sending) :
    Inv cfg { s with
      seqNum := s.seqNum + 1
      tries := s.tries + 1
      stats := { s.stats with sent := s.stats.sent + 1 }
      toSend := if cfg.count.isSome then s.toSend - 1 else s.toSend
      sender := .testing } :=
  { hi with
    asked := hi.asked.trans (Nat.le_succ _)
    sent := by
      rw [Int32.ofNat_add, ← hi.sent]
      rfl
    stats := ⟨hi.stats.received, hi.stats.sum, hi.stats.bounds, hi.stats.attained⟩
    sending := by simp
    toSend := by
      intro n hn
      have hpos := hi.sending hsender
      have h := (hi.toSend n hn).1
      simp only [hn, Option.isSome_some, if_true]
      omega
    reported := by
      intro stats hstats
      simpa [hsender] using (hi.reported stats hstats).2 }

theorem ask (hi : Inv cfg s) (hlt : s.asked.length < s.tries) {p : Payload}
    (hp : p.command = .ping ∧ p.uniqueId = cfg.uniqueId) :
    Inv cfg { s with requests := s.requests ++ [p], asked := s.asked ++ [p] } :=
  { hi with
    requests := by
      intro q hq
      obtain hq | rfl := List.mem_append.mp hq |>.imp_right List.mem_singleton.mp
      · exact hi.requests q hq
      · exact hp
    replies := by
      simp only [List.map_append, ← List.append_assoc]
      exact hi.replies.append (List.Sublist.refl _)
    pings := by
      intro q hq
      obtain hq | rfl := List.mem_append.mp hq |>.imp_right List.mem_singleton.mp
      · exact hi.pings q hq
      · exact hp.1
    asked := by simpa using hlt }

theorem send (hi : Inv cfg s) (hsender : s.sender = .sending) (result : SendResult)
    (start : UInt64) : Inv cfg (send cfg s result start) := by
  have hcount := hi.countSent hsender
  cases result with
  | error =>
      exact { hi with
        sending := by simp [Ping.send]
        reported := fun stats hstats ↦ ⟨(hi.reported stats hstats).1, rfl⟩ }
  | notReach => exact hcount
  | ok => exact hcount.ask (Nat.lt_succ_of_le hi.asked) ⟨rfl, rfl⟩

theorem receive (hi : Inv cfg s) (hmain : s.main = .receiving) {p : Payload} {mail : List Payload}
    (hmail : s.mail = p :: mail) (finish : UInt64) :
    Inv cfg (receive cfg { s with mail := mail } p finish) := by
  have hreplies := hi.replies
  rw [hmail, List.filter_cons] at hreplies
  have hfewer : (s.counted.map Prod.fst ++ mail.filter cfg.accepts ++
      s.requests.map reply).Sublist (s.asked.map reply) := by
    refine List.Sublist.trans ?_ hreplies
    refine ((List.Sublist.refl _).append ?_).append (List.Sublist.refl _)
    split_ifs
    · exact List.sublist_cons_self _ _
    · exact List.Sublist.refl _
  by_cases hsigint : s.sigint = true
  · rw [Ping.receive, if_pos hsigint]
    exact { hi with
      replies := hfewer
      receiving := by simp
      left := fun _ ↦ .inl hsigint
      reported := by simp }
  by_cases haccepts : cfg.accepts p = true
  · rw [Ping.receive, if_neg hsigint, if_pos haccepts]
    have hpos := hi.receiving hmain
    exact { hi with
      replies := by simpa [haccepts] using hreplies
      stats := by simpa [diffs] using hi.stats.add (finish - p.timestamp)
      receiving := by simp
      toReceive := by
        have h := hi.toReceive
        simp only [List.length_append, List.length_singleton]
        split_ifs at h ⊢ <;> omega
      left := by simp
      reported := by simp }
  · rw [Ping.receive, if_neg hsigint, if_neg haccepts]
    exact { hi with replies := hfewer }

theorem axiomPong_eq (hi : Inv cfg s) {p : Payload} (hp : p ∈ s.requests) :
    axiomPong p = some (reply p) ∧ cfg.accepts (reply p) = true := by
  obtain ⟨hcommand, hid⟩ := hi.requests p hp
  exact ⟨if_pos hcommand, by simp [Config.accepts, reply, hid]⟩

theorem answered (hi : Inv cfg s) {p : Payload} {requests : List Payload}
    (hrequests : s.requests = p :: requests) :
    Inv cfg { s with requests := requests, mail := s.mail ++ (axiomPong p).toList } := by
  obtain ⟨hpong, haccepts⟩ := hi.axiomPong_eq (p := p) (by simp [hrequests])
  exact { hi with
    requests := fun q hq ↦ hi.requests q (by simp [hrequests, hq])
    replies := by simpa [hrequests, hpong, haccepts] using hi.replies }

theorem step (hi : Inv cfg s) {e : Event} (he : Fresh cfg s e) (h : next cfg s e = some s') :
    Inv cfg s' := by
  cases e with
  | senderTested =>
      obtain ⟨hsender, rfl⟩ := by simpa only [next, Option.ite_none_right_eq_some,
        Option.some.injEq] using h
      exact { hi with
        sending := by
          simp only
          split_ifs with htest
          · exact fun _ ↦ htest.2
          · simp
        reported := by
          intro stats hstats
          simpa [hsender] using (hi.reported stats hstats).2 }
  | sent result start =>
      obtain ⟨hsender, rfl⟩ := by simpa only [next, Option.ite_none_right_eq_some,
        Option.some.injEq] using h
      exact hi.send hsender result start
  | senderFailed =>
      obtain ⟨hsender, rfl⟩ := by simpa only [next, Option.ite_none_right_eq_some,
        Option.some.injEq] using h
      exact { hi with
        sending := by simp
        reported := fun stats hstats ↦ ⟨(hi.reported stats hstats).1, rfl⟩ }
  | mainTested =>
      obtain ⟨hmain, rfl⟩ := by simpa only [next, Option.ite_none_right_eq_some,
        Option.some.injEq] using h
      by_cases htest : ¬ s.sigint ∧ 0 < s.toReceive
      · rw [if_pos htest]
        exact { hi with
          receiving := fun _ ↦ htest.2
          left := by simp
          reported := by simp }
      · rw [if_neg htest]
        exact { hi with
          receiving := by simp
          left := fun _ ↦ by grind
          reported := by simp }
  | received finish =>
      simp only [next] at h
      split at h
      · next p mail hmain hmail =>
          cases h
          exact hi.receive hmain hmail finish
      · cases h
  | interrupted =>
      obtain ⟨⟨-, hsigint⟩, rfl⟩ := by simpa only [next, Option.ite_none_right_eq_some,
        Option.some.injEq] using h
      exact { hi with
        receiving := by simp
        left := fun _ ↦ .inl hsigint
        reported := by simp }
  | mainFailed =>
      obtain ⟨-, rfl⟩ := by simpa only [next, Option.ite_none_right_eq_some,
        Option.some.injEq] using h
      exact { hi with receiving := by simp, left := by simp, reported := by simp }
  | joined =>
      obtain ⟨⟨hmain, hsender⟩, rfl⟩ := by simpa only [next, Option.ite_none_right_eq_some,
        Option.some.injEq] using h
      exact { hi with
        receiving := by simp
        left := fun _ ↦ hi.left (.inl hmain)
        reported := by
          rintro stats ⟨⟩
          exact ⟨rfl, hsender⟩ }
  | sigint =>
      cases h
      exact { hi with left := fun _ ↦ .inl rfl }
  | answered =>
      simp only [next] at h
      split at h
      · next p requests hrequests =>
          cases h
          exact hi.answered hrequests
      · cases h
  | dropped =>
      cases h
      exact { hi with
        requests := fun q hq ↦ hi.requests q (List.mem_of_mem_tail hq)
        replies := by
          refine List.Sublist.trans ?_ hi.replies
          exact (List.Sublist.refl _).append ((List.tail_sublist _).map _) }
  | foreign p =>
      cases h
      have haccepts : cfg.accepts p = false := he
      exact { hi with replies := by simpa [haccepts] using hi.replies }

theorem of_exec (h : Exec (next cfg) (init cfg) tr s) (hfresh : Meets (Fresh cfg) tr) :
    Inv cfg s :=
  h.invariant inv_init (fun _ _ _ hi he hnext ↦ hi.step he hnext) hfresh

theorem counted_sublist (hi : Inv cfg s) :
    (s.counted.map fun r ↦ { r.1 with command := Command.ping }).Sublist s.asked := by
  have hsub : (s.counted.map Prod.fst).Sublist (s.asked.map reply) := by
    refine List.Sublist.trans ?_ hi.replies
    rw [List.append_assoc]
    exact List.sublist_append_left _ _
  have hback : (s.asked.map reply).map (fun p ↦ { p with command := Command.ping }) = s.asked := by
    rw [List.map_map]
    refine (List.map_congr_left fun p hp ↦ ?_).trans (List.map_id _)
    simp [reply, ← hi.pings p hp]
  rw [← hback]
  simpa [Function.comp_def] using hsub.map fun p ↦ { p with command := Command.ping }

theorem tries_le (hi : Inv cfg s) {n : UInt32} (hn : cfg.count = some n) :
    s.tries = 0 ∨ (s.tries : ℤ) ≤ toInt n := by
  have h := hi.toSend n hn
  omega

/-- Without a signal the main program leaves its loop when all has come that was to come. -/
theorem complete (hi : Inv cfg s) (hzero : s.toReceive = 0) :
    ∃ n, cfg.count = some n ∧ n.toNat < 2 ^ 31 ∧ s.tries = n.toNat ∧
      s.counted.length = n.toNat ∧ s.asked.length = n.toNat ∧ s.requests = [] := by
  have htoReceive := hi.toReceive
  cases hcount : cfg.count with
  | none => simp [hcount, Config.numPing, hzero] at htoReceive
  | some n =>
      have hcounted : s.counted.length = n.toNat := by
        simpa [hcount, Config.numPing, hzero] using htoReceive
      have hlength := hi.replies.length_le
      simp only [List.length_append, List.length_map] at hlength
      have hasked := hi.asked
      have htries := hi.tries_le hcount
      have hint := toInt_eq n
      have hlt : n.toNat < 2 ^ 32 := n.toNat_lt
      refine ⟨n, rfl, ?_, ?_, hcounted, ?_, List.eq_nil_of_length_eq_zero ?_⟩ <;>
        split_ifs at hint <;> omega

/-- What is reported at the end is exact: the counters have not overflowed. -/
theorem counters (hi : Inv cfg s) {n : ℕ} (hlt : n < 2 ^ 31) (htries : s.tries = n)
    (hcounted : s.counted.length = n) :
    s.stats.sent.toInt = n ∧ s.stats.received.toInt = n := by
  rw [hi.sent, hi.stats.received, diffs, List.length_map, hcounted, htries]
  exact ⟨Int32.toInt_ofNat_of_lt hlt, Int32.toInt_ofNat_of_lt hlt⟩

end Inv

/-- A request that is counted as sent. -/
def Event.Sends : Event → Bool
  | .sent result _ => result ≠ .error
  | _ => false

/-- The requests of a run. -/
def sends (tr : List (State × Event)) : ℕ := tr.countP fun p ↦ p.2.Sends

theorem tries_step {e : Event} (h : next cfg s e = some s') :
    s'.tries = s.tries + if e.Sends then 1 else 0 := by
  cases e with
  | sent result start =>
      obtain ⟨-, rfl⟩ := by simpa only [next, Option.ite_none_right_eq_some,
        Option.some.injEq] using h
      cases result <;> rfl
  | received finish =>
      simp only [next] at h
      split at h
      · next p mail _ _ =>
          cases h
          change (receive cfg { s with mail := mail } p finish).tries = s.tries
          rw [receive]
          split_ifs <;> rfl
      · cases h
  | answered =>
      simp only [next] at h
      split at h
      · cases h
        rfl
      · cases h
  | senderTested | senderFailed | mainTested | interrupted | mainFailed | joined =>
      obtain ⟨-, rfl⟩ := by simpa only [next, Option.ite_none_right_eq_some,
        Option.some.injEq] using h
      rfl
  | sigint | dropped | foreign =>
      cases h
      rfl

theorem tries_eq_sends (h : Exec (next cfg) (init cfg) tr s) : s.tries = sends tr := by
  refine h.trace_invariant (C := fun _ _ ↦ True) (I := fun tr s ↦ s.tries = sends tr) rfl
    (fun tr s e s' htries _ hnext ↦ ?_) fun _ _ ↦ trivial
  rw [tries_step hnext, htries]
  simp [sends, List.countP_append, List.countP_singleton]

/-- In every run in which no other reply carries its number, axiom-ping counts replies to
requests of its own, each at most once and in the order of the requests. What it reports are the
number of its requests, the number of the replies, both as an `int`, and the least, the greatest
and the sum of the times between. If it reports without a signal, it was given a count below
`2 ^ 31`, has sent that many requests and had a reply to every one. -/
theorem ping_report (hexec : Exec (next cfg) (init cfg) tr s) (hfresh : Meets (Fresh cfg) tr) :
    (s.counted.map fun r ↦ { r.1 with command := Command.ping }).Sublist s.asked ∧
      s.asked.length ≤ sends tr ∧
      ∀ stats, s.main = .reported stats →
        stats.sent = Int32.ofNat (sends tr) ∧ stats.Of (diffs s) ∧
        (s.sigint = false → ∃ n, cfg.count = some n ∧ n.toNat < 2 ^ 31 ∧ sends tr = n.toNat ∧
          stats.sent.toInt = n.toNat ∧ stats.received.toInt = n.toNat ∧ s.requests = [] ∧
          (s.counted.map fun r ↦ { r.1 with command := Command.ping }) = s.asked) := by
  have hi := Inv.of_exec hexec hfresh
  have htries := tries_eq_sends hexec
  rw [← htries]
  refine ⟨hi.counted_sublist, hi.asked, fun stats hstats ↦ ?_⟩
  obtain ⟨rfl, -⟩ := hi.reported stats hstats
  refine ⟨hi.sent, hi.stats, fun hsigint ↦ ?_⟩
  have hzero : s.toReceive = 0 := by
    simpa [hsigint] using hi.left (.inr ⟨_, hstats⟩)
  obtain ⟨n, hn, hlt, hsent, hcounted, hasked, hrequests⟩ := hi.complete hzero
  obtain ⟨hreported, hreceived⟩ := hi.counters hlt hsent hcounted
  refine ⟨n, hn, hlt, hsent, hreported, hreceived, hrequests,
    hi.counted_sublist.eq_of_length ?_⟩
  rw [List.length_map, hcounted, hasked]

/-- Two requests, the second of which is lost: the report waits for a signal. -/
def twoPings : Config := ⟨some 2, 7⟩

theorem ping_report_lost : ∃ tr s, Exec (next twoPings) (init twoPings) tr s ∧
    Meets (Fresh twoPings) tr ∧ s.main = .reported ⟨2, 1, 5, 5, 5⟩ ∧ s.sigint = true ∧
    (s.counted.map fun r ↦ { r.1 with command := Command.ping }).Sublist s.asked := by
  have hrun : ∃ tr s, Exec (next twoPings) (init twoPings) tr s ∧ Meets (Fresh twoPings) tr ∧
      s.main = .reported ⟨2, 1, 5, 5, 5⟩ ∧ s.sigint = true :=
    Exec.exists_of_run [.senderTested, .mainTested, .sent .ok 10, .answered,
      .foreign ⟨.pong, 8, 1, 3⟩, .received 15, .mainTested, .senderTested, .sent .ok 20, .dropped,
      .received 30, .senderTested, .sigint, .interrupted, .joined] (by decide)
  obtain ⟨tr, s, hexec, hfresh, hmain, hsigint⟩ := hrun
  exact ⟨tr, s, hexec, hfresh, hmain, hsigint, (ping_report hexec hfresh).1⟩

/-! ## Progress -/

/-- No signal, no error, no loss. -/
def Calm (cfg : Config) (_ : State) : Event → Prop
  | .sent result _ => result = .ok
  | .senderFailed | .mainFailed | .sigint | .dropped => False
  | e => cfg.Disturbs e = false

theorem Calm.fresh {e : Event} (h : Calm cfg s e) : Fresh cfg s e := by
  cases e with
  | foreign p => exact h
  | _ => rfl

structure Steady (cfg : Config) (s : State) : Prop extends Inv cfg s where
  sigint : s.sigint = false
  main : s.main ≠ .failed
  kept : s.counted.length + (s.mail.filter cfg.accepts).length + s.requests.length = s.tries
  ended : s.sender = .ended → s.toSend ≤ 0

namespace Steady

theorem init : Steady cfg (init cfg) :=
  ⟨inv_init, rfl, by simp [Ping.init], rfl, by simp [Ping.init]⟩

theorem step (hst : Steady cfg s) {e : Event} (he : Calm cfg s e) (h : next cfg s e = some s') :
    Steady cfg s' := by
  have hi := hst.toInv.step he.fresh h
  obtain ⟨hinv, hsigint, hmain, hkept, hended⟩ := hst
  suffices hs' : s'.sigint = false ∧ s'.main ≠ .failed ∧
      s'.counted.length + (s'.mail.filter cfg.accepts).length + s'.requests.length =
        s'.tries ∧ (s'.sender = .ended → s'.toSend ≤ 0) from
    ⟨hi, hs'.1, hs'.2.1, hs'.2.2.1, hs'.2.2.2⟩
  cases e with
  | senderFailed | mainFailed | sigint | dropped => exact he.elim
  | senderTested =>
      obtain ⟨-, rfl⟩ := by simpa only [next, Option.ite_none_right_eq_some,
        Option.some.injEq] using h
      refine ⟨hsigint, hmain, hkept, ?_⟩
      by_cases htest : 0 < s.toSend
      · simp [hsigint, htest]
      · exact fun _ ↦ not_lt.mp htest
  | sent result start =>
      obtain ⟨-, rfl⟩ := by simpa only [next, Option.ite_none_right_eq_some,
        Option.some.injEq] using h
      obtain rfl : result = .ok := he
      refine ⟨hsigint, hmain, ?_, by simp [send]⟩
      simp only [send, if_true, List.length_append, List.length_singleton]
      omega
  | mainTested =>
      obtain ⟨-, rfl⟩ := by simpa only [next, Option.ite_none_right_eq_some,
        Option.some.injEq] using h
      refine ⟨hsigint, ?_, hkept, hended⟩
      simp only
      split_ifs <;> simp
  | received finish =>
      simp only [next] at h
      split at h
      · next p mail hreceiving hmail =>
          cases h
          rw [hmail, List.filter_cons] at hkept
          by_cases haccepts : cfg.accepts p = true
          · rw [if_pos haccepts, List.length_cons] at hkept
            rw [receive, if_neg (by simp [hsigint]), if_pos haccepts]
            refine ⟨hsigint, by simp, ?_, hended⟩
            simp only [List.length_append, List.length_singleton]
            omega
          · rw [if_neg haccepts] at hkept
            rw [receive, if_neg (by simp [hsigint]), if_neg haccepts]
            exact ⟨hsigint, hmain, hkept, hended⟩
      · cases h
  | interrupted =>
      obtain ⟨⟨-, hset⟩, -⟩ := by simpa only [next, Option.ite_none_right_eq_some,
        Option.some.injEq] using h
      simp [hsigint] at hset
  | joined =>
      obtain ⟨-, rfl⟩ := by simpa only [next, Option.ite_none_right_eq_some,
        Option.some.injEq] using h
      exact ⟨hsigint, by simp, hkept, hended⟩
  | answered =>
      simp only [next] at h
      split at h
      · next p requests hrequests =>
          cases h
          obtain ⟨hpong, haccepts⟩ := hinv.axiomPong_eq (p := p) (by simp [hrequests])
          refine ⟨hsigint, hmain, ?_, hended⟩
          rw [hrequests, List.length_cons] at hkept
          simp only [hpong, Option.toList_some, List.filter_append, List.filter_singleton,
            haccepts, cond_true, List.length_append, List.length_singleton]
          omega
      · cases h
  | foreign p =>
      cases h
      have haccepts : cfg.accepts p = false := he
      exact ⟨hsigint, hmain, by simpa [haccepts] using hkept, hended⟩

/-- All requests have been sent and all replies counted. -/
theorem counted_eq (hst : Steady cfg s) {n : UInt32} (hn : cfg.count = some n)
    (hlt : n.toNat < 2 ^ 31) (hsender : s.sender = .ended) (hrequests : s.requests = [])
    (hmail : s.mail = []) : s.counted.length = n.toNat := by
  have hkept := hst.kept
  simp only [hrequests, hmail, List.filter_nil, List.length_nil] at hkept
  have hended := hst.ended hsender
  have htoSend := hst.toSend n hn
  rw [toInt_eq, if_pos hlt] at htoSend
  omega

theorem of_exec (h : Exec (next cfg) (Ping.init cfg) tr s) (hcalm : Meets (Calm cfg) tr) :
    Steady cfg s :=
  h.invariant init (fun _ _ _ hst he hnext ↦ hst.step he hnext) hcalm

end Steady

def Sender.rank : Sender → ℕ
  | .testing => 2
  | .sending => 1
  | .ended => 0

def Main.rank : Main → ℕ
  | .testing => 3
  | .receiving => 2
  | .joining => 1
  | .reported _ | .failed => 0

def rank (n : ℕ) (s : State) : ℕ :=
  5 * (n - s.tries) + 3 * s.requests.length + 2 * s.mail.length + s.sender.rank + s.main.rank

namespace Steady

/-- The sender can go on until it ends. -/
theorem exists_step_sender (hst : Steady cfg s) {n : UInt32} (hn : cfg.count = some n)
    (hsender : s.sender ≠ .ended) :
    ∃ e s', Calm cfg s e ∧ next cfg s e = some s' ∧ rank n.toNat s' < rank n.toNat s := by
  cases hat : s.sender with
  | ended => exact absurd hat hsender
  | testing =>
      refine ⟨.senderTested, _, rfl, if_pos hat, ?_⟩
      simp only [rank, hat]
      split_ifs <;> simp [Sender.rank]
  | sending =>
      refine ⟨.sent .ok 0, _, rfl, if_pos hat, ?_⟩
      -- fewer than `n` have been sent, so that the first term of the rank drops
      have hpos := hst.sending hat
      have htoSend := (hst.toSend n hn).1
      have hint : toInt n ≤ n.toNat := by
        rw [toInt_eq]
        split_ifs <;> omega
      simp only [rank, send, if_true, hat, Sender.rank, List.length_append, List.length_singleton]
      omega

theorem exists_step (hst : Steady cfg s) {n : UInt32} (hn : cfg.count = some n)
    (hlt : n.toNat < 2 ^ 31) (hunreported : ¬ ∃ stats, s.main = .reported stats) :
    ∃ e s', Calm cfg s e ∧ next cfg s e = some s' ∧ rank n.toNat s' < rank n.toNat s := by
  cases hmain : s.main with
  | testing =>
      refine ⟨.mainTested, _, rfl, if_pos hmain, ?_⟩
      simp only [rank, hmain]
      split_ifs <;> simp [Main.rank]
  | receiving =>
      cases hmail : s.mail with
      | cons p mail =>
          refine ⟨.received 0, receive cfg { s with mail := mail } p 0, rfl,
            by simp only [next, hmain, hmail], ?_⟩
          rw [receive, if_neg (by simp [hst.sigint])]
          split_ifs <;> simp only [rank, hmain, hmail, Main.rank, List.length_cons] <;> omega
      | nil =>
          cases hrequests : s.requests with
          | cons p requests =>
              refine ⟨.answered, { s with
                requests := requests
                mail := s.mail ++ (axiomPong p).toList }, rfl, by simp only [next, hrequests], ?_⟩
              have hpong := (hst.axiomPong_eq (p := p) (by simp [hrequests])).1
              simp only [rank, hrequests, hpong, Option.toList_some, List.length_append,
                List.length_cons, List.length_nil]
              omega
          | nil =>
              refine hst.exists_step_sender hn fun hsender ↦ ?_
              have hcounted := hst.counted_eq hn hlt hsender hrequests hmail
              have hpos := hst.receiving hmain
              have htoReceive := hst.toReceive
              simp only [hn, Option.isSome_some, if_true, Config.numPing,
                Option.getD_some] at htoReceive
              omega
  | joining =>
      by_cases hsender : s.sender = .ended
      · refine ⟨.joined, _, rfl, if_pos ⟨hmain, hsender⟩, ?_⟩
        simp [rank, hmain, Main.rank]
      · exact hst.exists_step_sender hn hsender
  | reported stats => exact absurd ⟨stats, hmain⟩ hunreported
  | failed => exact absurd hmain hst.main

end Steady

/-- As long as there has been no signal, no error, no loss and no other reply with its number,
axiom-ping with a count below `2 ^ 31` can go on to its report, which says that as many replies
came as requests went out. -/
theorem ping_completes {n : UInt32} (hn : cfg.count = some n) (hlt : n.toNat < 2 ^ 31)
    (hexec : Exec (next cfg) (init cfg) tr s) (hcalm : Meets (Calm cfg) tr) :
    ∃ s', Reaches (next cfg) (Calm cfg) s s' ∧
      ∃ stats, s'.main = .reported stats ∧ stats.sent.toInt = n.toNat ∧
        stats.received.toInt = n.toNat := by
  have hst := Steady.of_exec hexec hcalm
  obtain ⟨s', hreaches, stats, hstats⟩ : ∃ s', Reaches (next cfg) (Calm cfg) s s' ∧
      ∃ stats, s'.main = .reported stats := by
    refine Reaches.exists_of_progress (rank n.toNat) (fun s hst hunreported ↦ ?_) hst
    obtain ⟨e, s', he, hnext, hrank⟩ := hst.exists_step hn hlt hunreported
    exact ⟨e, s', he, hnext, hst.step he hnext, hrank⟩
  refine ⟨s', hreaches, stats, hstats, ?_⟩
  obtain ⟨tr', hexec', hcalm'⟩ := hreaches
  have hst' := hexec'.invariant hst (fun _ _ _ hst he hnext ↦ hst.step he hnext) hcalm'
  obtain ⟨rfl, -⟩ := hst'.reported stats hstats
  have hzero : s'.toReceive = 0 := by
    simpa [hst'.sigint] using hst'.left (.inr ⟨_, hstats⟩)
  obtain ⟨m, hm, -, hsent, hcounted, -⟩ := hst'.complete hzero
  obtain rfl : n = m := by simpa [hn] using hm
  exact hst'.counters hlt hsent hcounted

/-- Two pings can be completed from the start. -/
theorem two_pings_complete : ∃ s', Reaches (next twoPings) (Calm twoPings) (init twoPings) s' ∧
    ∃ stats, s'.main = .reported stats ∧ stats.sent.toInt = 2 ∧ stats.received.toInt = 2 :=
  ping_completes (n := 2) rfl (by decide) .nil meets_nil

end AxiomApps.Ping
