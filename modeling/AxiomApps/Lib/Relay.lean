import AxiomApps.Lib.Execution

/-!
# Relays between local clients and a hub

A relay at each node connects the clients there with a hub. What the clients post at the
relay's inbox travels up to the hub; what the hub sends travels down and is handed to the
local socket it names, if a client has that socket bound at the moment, and is lost
otherwise. Inboxes, links and sockets are queues. Seen from the clients a relay is a pair
of queues, `upward` and `downward`: every step of the relays is a reception of the hub, a
delivery, or changes neither queue.
-/

namespace Relay

/-- The relays and the hub. An inbox exists from the moment it is bound; `out` is what the
hub has still to send before it receives again. -/
structure Net (V N M D H : Type*) where
  inbox : V → Option (List M)
  up : V → List M
  hub : H
  out : List (V × M)
  down : V → List M
  sock : V → N → Option (List D)

/-- What the hub does with a message, which of its two services a relay runs, and the
socket and the datagram a message from the hub gives. -/
structure Program (V N M D H : Type*) where
  onMsg : V → M → H → H × List (V × M)
  forwards : Bool
  delivers : Bool
  route : M → Option (N × D)

inductive Event (V : Type*)
  | opened (v : V)
  | forwarded (v : V)
  | received (v : V)
  | sent
  | delivered (v : V)
  deriving DecidableEq

variable {V N M D H : Type*} [DecidableEq V] [DecidableEq N]

def outTo (v : V) (out : List (V × M)) : List M :=
  (out.filter (·.1 = v)).map Prod.snd

@[simp] theorem outTo_nil (v : V) : outTo v ([] : List (V × M)) = [] := rfl

theorem outTo_cons_self (v : V) (m : M) (out : List (V × M)) :
    outTo v ((v, m) :: out) = m :: outTo v out := by
  simp [outTo]

theorem outTo_cons_of_ne {v w : V} (hw : w ≠ v) (m : M) (out : List (V × M)) :
    outTo w ((v, m) :: out) = outTo w out := by
  simp [outTo, hw.symm]

theorem outTo_map_const {nodes : List V} (hnodup : nodes.Nodup) {v : V} (hv : v ∈ nodes) (m : M) :
    outTo v (nodes.map fun w ↦ (w, m)) = [m] := by
  induction nodes with
  | nil => simp at hv
  | cons w nodes ih =>
      obtain ⟨hw, hnodes⟩ := List.nodup_cons.mp hnodup
      rw [List.map_cons]
      by_cases hvw : v = w
      · subst hvw
        have hrest : outTo v (nodes.map fun u ↦ (u, m)) = [] := by
          simp only [outTo, List.map_eq_nil_iff, List.filter_eq_nil_iff, List.mem_map]
          rintro _ ⟨u, hu, rfl⟩ hvu
          exact hw (by simpa using of_decide_eq_true hvu ▸ hu)
        rw [outTo_cons_self, hrest]
      · rw [outTo_cons_of_ne hvw]
        exact ih hnodes ((List.mem_cons.mp hv).resolve_left hvw)

namespace Net

/-- What is on its way from the clients of `v` to the hub, the oldest first. -/
def upward (s : Net V N M D H) (v : V) : List M :=
  s.up v ++ (s.inbox v).getD []

/-- What is on its way from the hub to the clients of `v`, the oldest first. -/
def downward (s : Net V N M D H) (v : V) : List M :=
  s.down v ++ outTo v s.out

/-- Put a datagram into a socket; an unbound one swallows it. -/
def put (s : Net V N M D H) (v : V) (n : N) (d : D) : Net V N M D H :=
  { s with sock := fun w k ↦ if w = v ∧ k = n then (s.sock v n).map (· ++ [d]) else s.sock w k }

def bind (s : Net V N M D H) (v : V) (n : N) : Net V N M D H :=
  { s with sock := fun w k ↦ if w = v ∧ k = n then some [] else s.sock w k }

def close (s : Net V N M D H) (v : V) (n : N) : Net V N M D H :=
  { s with sock := fun w k ↦ if w = v ∧ k = n then none else s.sock w k }

def post (s : Net V N M D H) (v : V) (m : M) : Net V N M D H :=
  { s with inbox := Function.update s.inbox v ((s.inbox v).map (· ++ [m])) }

section Clients

variable (s : Net V N M D H) (v w : V) (n k : N) (m : M)

@[simp] theorem upward_bind : (s.bind v n).upward w = s.upward w := rfl

@[simp] theorem downward_bind : (s.bind v n).downward w = s.downward w := rfl

theorem bind_sock : (s.bind v n).sock w k = if w = v ∧ k = n then some [] else s.sock w k := rfl

@[simp] theorem upward_close : (s.close v n).upward w = s.upward w := rfl

@[simp] theorem downward_close : (s.close v n).downward w = s.downward w := rfl

theorem close_sock : (s.close v n).sock w k = if w = v ∧ k = n then none else s.sock w k := rfl

omit [DecidableEq N] in
@[simp] theorem downward_post : (s.post v m).downward w = s.downward w := rfl

omit [DecidableEq N] in
@[simp] theorem post_sock : (s.post v m).sock = s.sock := rfl

theorem put_sock (d : D) : (s.put v n d).sock w k =
    if w = v ∧ k = n then (s.sock v n).map (· ++ [d]) else s.sock w k := rfl

variable {s v}

omit [DecidableEq N] in
theorem upward_post (h : s.inbox v ≠ none) (w : V) :
    (s.post v m).upward w = s.upward w ++ if w = v then [m] else [] := by
  by_cases hw : w = v
  · subst hw
    obtain ⟨q, hq⟩ := Option.ne_none_iff_exists'.mp h
    simp [upward, post, hq]
  · simp [upward, post, hw]

end Clients

end Net

/-- One step of a relay or of the hub. The hub does not receive while it is sending. -/
def next (P : Program V N M D H) (s : Net V N M D H) : Event V → Option (Net V N M D H)
  | .opened v =>
      if P.forwards = true ∧ s.inbox v = none then
        some { s with inbox := Function.update s.inbox v (some []) }
      else none
  | .forwarded v =>
      match s.inbox v with
      | some (m :: q) =>
          some { s with inbox := Function.update s.inbox v (some q),
                        up := Function.update s.up v (s.up v ++ [m]) }
      | _ => none
  | .received v =>
      match s.out, s.up v with
      | [], m :: q =>
          some { s with up := Function.update s.up v q, hub := (P.onMsg v m s.hub).1,
                        out := (P.onMsg v m s.hub).2 }
      | _, _ => none
  | .sent =>
      match s.out with
      | (v, m) :: out =>
          some { s with out := out, down := Function.update s.down v (s.down v ++ [m]) }
      | [] => none
  | .delivered v =>
      if P.delivers = true then
        match s.down v with
        | m :: q =>
            let s' := { s with down := Function.update s.down v q }
            some (match P.route m with
              | some (n, d) => s'.put v n d
              | none => s')
        | [] => none
      else none

/-! ## What a step does to the two queues -/

/-- The step changes nothing the clients or the hub can see. -/
structure Silent (s s' : Net V N M D H) : Prop where
  upward : ∀ w, s'.upward w = s.upward w
  downward : ∀ w, s'.downward w = s.downward w
  hub : s'.hub = s.hub
  sock : s'.sock = s.sock
  inbox : ∀ w, s.inbox w ≠ none → s'.inbox w ≠ none

/-- The hub takes `m`, the oldest message from `v`. -/
structure Received (P : Program V N M D H) (v : V) (m : M) (s s' : Net V N M D H) : Prop where
  upward_self : s.upward v = m :: s'.upward v
  upward_of_ne : ∀ w, w ≠ v → s'.upward w = s.upward w
  downward : ∀ w, s'.downward w = s.downward w ++ outTo w (P.onMsg v m s.hub).2
  hub : s'.hub = (P.onMsg v m s.hub).1
  sock : s'.sock = s.sock
  inbox : s'.inbox = s.inbox

/-- The relay at `v` hands on `m`, the oldest message for it. -/
structure Delivered (P : Program V N M D H) (v : V) (m : M) (s s' : Net V N M D H) : Prop where
  upward : ∀ w, s'.upward w = s.upward w
  downward_self : s.downward v = m :: s'.downward v
  downward_of_ne : ∀ w, w ≠ v → s'.downward w = s.downward w
  hub : s'.hub = s.hub
  inbox : s'.inbox = s.inbox
  sock : s'.sock = match P.route m with
    | some (n, d) => (s.put v n d).sock
    | none => s.sock

section Steps

variable {P : Program V N M D H} {s s' : Net V N M D H} {v : V}

theorem silent_of_opened (h : next P s (.opened v) = some s') : Silent s s' := by
  simp only [next, Option.ite_none_right_eq_some, Option.some.injEq] at h
  obtain ⟨⟨-, hnone⟩, rfl⟩ := h
  refine ⟨fun w ↦ ?_, fun _ ↦ rfl, rfl, rfl, fun w hw ↦ ?_⟩
  · by_cases hw : w = v
    · subst hw
      simp [Net.upward, hnone]
    · simp [Net.upward, hw]
  · by_cases hwv : w = v
    · subst hwv
      exact absurd hnone hw
    · simpa [hwv] using hw

theorem silent_of_forwarded (h : next P s (.forwarded v) = some s') : Silent s s' := by
  simp only [next] at h
  split at h
  · next m q hinbox =>
      cases h
      refine ⟨fun w ↦ ?_, fun _ ↦ rfl, rfl, rfl, fun w hw ↦ ?_⟩
      · by_cases hw : w = v
        · subst hw
          simp [Net.upward, hinbox]
        · simp [Net.upward, hw]
      · by_cases hwv : w = v
        · subst hwv
          simp
        · simpa [hwv] using hw
  · cases h

theorem received_of_next (h : next P s (.received v) = some s') :
    ∃ m q, s.out = [] ∧ s.up v = m :: q ∧ Received P v m s s' := by
  simp only [next] at h
  split at h
  · next m q hout hup =>
      cases h
      refine ⟨m, q, hout, hup, ?_, fun w hw ↦ ?_, fun w ↦ ?_, rfl, rfl, rfl⟩
      · simp [Net.upward, hup]
      · simp [Net.upward, hw]
      · simp [Net.downward, hout]
  · cases h

theorem silent_of_sent (h : next P s .sent = some s') : Silent s s' := by
  simp only [next] at h
  split at h
  · next u m out hout =>
      cases h
      refine ⟨fun _ ↦ rfl, fun w ↦ ?_, rfl, rfl, fun _ hw ↦ hw⟩
      by_cases hw : w = u
      · subst hw
        simp [Net.downward, hout, outTo_cons_self]
      · simp [Net.downward, hout, outTo_cons_of_ne hw, hw]
  · cases h

theorem delivered_of_next (h : next P s (.delivered v) = some s') :
    P.delivers = true ∧ ∃ m, Delivered P v m s s' := by
  simp only [next] at h
  split at h
  case isFalse => cases h
  case isTrue hdelivers =>
    split at h
    · next m q hdown =>
        cases h
        refine ⟨hdelivers, m, ?_⟩
        cases hroute : P.route m with
        | none =>
            refine ⟨fun _ ↦ rfl, ?_, fun w hw ↦ ?_, rfl, rfl, by simp [hroute]⟩
            · simp [Net.downward, hdown]
            · simp [Net.downward, hw]
        | some r =>
            refine ⟨fun _ ↦ rfl, ?_, fun w hw ↦ ?_, rfl, rfl, by simp [hroute, Net.put]⟩
            · simp [Net.downward, Net.put, hdown]
            · simp [Net.downward, Net.put, hw]
    · cases h

omit [DecidableEq N] in
theorem Received.mem_upward {m : M} (h : Received P v m s s') : m ∈ s.upward v :=
  h.upward_self ▸ List.mem_cons_self ..

omit [DecidableEq N] in
theorem Received.upward_subset {m : M} (h : Received P v m s s') (w : V) :
    s'.upward w ⊆ s.upward w := by
  by_cases hw : w = v
  · subst hw
    rw [h.upward_self]
    exact List.subset_cons_self ..
  · rw [h.upward_of_ne w hw]
    exact List.Subset.refl _

theorem Delivered.mem_downward {m : M} (h : Delivered P v m s s') : m ∈ s.downward v :=
  h.downward_self ▸ List.mem_cons_self ..

theorem Delivered.downward_subset {m : M} (h : Delivered P v m s s') (w : V) :
    s'.downward w ⊆ s.downward w := by
  by_cases hw : w = v
  · subst hw
    rw [h.downward_self]
    exact List.subset_cons_self ..
  · rw [h.downward_of_ne w hw]
    exact List.Subset.refl _

/-- Every step of the relays is silent, a reception of the hub or a delivery. -/
theorem next_cases {e : Event V} (h : next P s e = some s') :
    (Silent s s' ∧ ∀ v, e ≠ .received v) ∨
      (∃ v m, e = .received v ∧ (s.up v).head? = some m ∧ Received P v m s s') ∨
      ∃ v m, e = .delivered v ∧ Delivered P v m s s' := by
  cases e with
  | opened v => exact .inl ⟨silent_of_opened h, by simp⟩
  | forwarded v => exact .inl ⟨silent_of_forwarded h, by simp⟩
  | received v =>
      obtain ⟨m, q, -, hup, hrec⟩ := received_of_next h
      exact .inr (.inl ⟨v, m, rfl, by simp [hup], hrec⟩)
  | sent => exact .inl ⟨silent_of_sent h, by simp⟩
  | delivered v =>
      obtain ⟨-, m, hdel⟩ := delivered_of_next h
      exact .inr (.inr ⟨v, m, rfl, hdel⟩)

/-- When no relay and not the hub can go on, nothing is under way. -/
theorem quiet_of_stuck (hforwards : P.forwards = true) (hdelivers : P.delivers = true)
    (h : ∀ e, next P s e = none) (v : V) :
    s.inbox v = some [] ∧ s.upward v = [] ∧ s.downward v = [] := by
  have hout : s.out = [] := by
    by_contra hne
    obtain ⟨⟨u, m⟩, out, hout⟩ := List.exists_cons_of_ne_nil hne
    simpa [next, hout] using h .sent
  have hinbox : s.inbox v = some [] := by
    cases hbox : s.inbox v with
    | none => simpa [next, hforwards, hbox] using h (.opened v)
    | some q =>
        cases q with
        | nil => rfl
        | cons m q => simpa [next, hbox] using h (.forwarded v)
  have hup : s.up v = [] := by
    by_contra hne
    obtain ⟨m, q, hup⟩ := List.exists_cons_of_ne_nil hne
    simpa [next, hout, hup] using h (.received v)
  have hdown : s.down v = [] := by
    by_contra hne
    obtain ⟨m, q, hdown⟩ := List.exists_cons_of_ne_nil hne
    simpa [next, hdelivers, hdown] using h (.delivered v)
  exact ⟨hinbox, by simp [Net.upward, hup, hinbox], by simp [Net.downward, hdown, hout]⟩

end Steps

end Relay
