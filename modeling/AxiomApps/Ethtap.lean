import AxiomApps.Lib.Mail

/-!
# axiom-ethtap

A virtual Ethernet over the AXIOM network. Each node has a tap device. A sender thread reads
frames from it and sends them on, to the node that the destination address names or to all
other nodes; a receiver thread writes those that are for its node to the tap.

`axiom_send` delivers to the process bound to the port on the node, in any order.
-/

namespace AxiomApps.Ethtap

open EventSystem

def mac : List UInt8 := [0x42, 0xD9, 0xAF, 0x86, 0x0B, 0x34]

def broadcast : List UInt8 := [0xff, 0xff, 0xff, 0xff, 0xff, 0xff]

/-- `PORT`, the default of `-p` and the port the sender sends to. -/
def defaultPort : ℕ := 2

def ethAlen : ℕ := 6

/-- A call of `axiom_send`. -/
structure Message where
  node : ℕ
  port : ℕ
  frame : List UInt8
  deriving DecidableEq, Repr

/-- Nodes are numbered from 1. -/
abbrev Node (numNodes : ℕ) := {n : ℕ // 1 ≤ n ∧ n ≤ numNodes}

/-- A frame with its header that fits a long message. -/
abbrev Frame (longMax : ℕ) := {bs : List UInt8 // 14 ≤ bs.length ∧ bs.length ≤ longMax}

/-- The address `ethtap_alloc` gives to the tap. -/
def mymac (node : ℕ) : List UInt8 := mac.take (ethAlen - 1) ++ [node.toUInt8]

/-- What `sender` sends for a frame it has read. -/
def sender (numNodes myNode : ℕ) (buf : List UInt8) : List Message :=
  if buf.length = 0 then []
  else if buf.take (ethAlen - 1) = mac.take (ethAlen - 1) then
    [⟨(buf.getD (ethAlen - 1) 0).toNat, defaultPort, buf⟩]
  else if buf.take ethAlen = broadcast then
    ((List.range' 1 numNodes).filter (· ≠ myNode)).map fun no ↦ ⟨no, defaultPort, buf⟩
  else []

/-- What `receiver` writes for a message it has received. -/
def receiver (myNode : ℕ) (buf : List UInt8) : List (List UInt8) :=
  if buf.length < 12 then []
  else if buf.take ethAlen = mymac myNode ∨ buf.take ethAlen = broadcast then [buf]
  else []

/-- A message reaches the process bound to its port on its node. -/
def arrive (numNodes port : ℕ) (v : Node numNodes) (m : Message) : List (List UInt8) :=
  if m.node = v ∧ m.port = port then receiver v m.frame else []

/-- The nodes, all bound to the same port: frames are read from the taps and messages
delivered. -/
def next (longMax numNodes port : ℕ)
    (s : Mail.State Message (Node numNodes) (List UInt8))
    (e : Mail.Event (Node numNodes × Frame longMax)) :
    Option (Mail.State Message (Node numNodes) (List UInt8)) :=
  Mail.next (fun x ↦ sender numNodes x.1 x.2) (arrive numNodes port) s e

/-- What a switch writes to the tap of `v` of a frame read from the tap of `u`. -/
def switched {longMax numNodes : ℕ} (v : Node numNodes) (x : Node numNodes × Frame longMax) :
    List (List UInt8) :=
  if x.2.1.take ethAlen = mymac v then [x.2.1]
  else if x.2.1.take ethAlen = broadcast ∧ v ≠ x.1 then [x.2.1]
  else []

/-- At any time each tap has at most what a switch writes to it; what is in flight can be
delivered, and when nothing is each tap has just that. -/
def DeliversLikeSwitch (longMax numNodes port : ℕ) : Prop :=
  ∀ tr s, Exec (next longMax numNodes port) Mail.start tr s →
    (∀ v, (s.out v).Subperm ((Mail.puts tr).flatMap (switched v))) ∧
    (s.inFlight = [] → ∀ v, (s.out v).Perm ((Mail.puts tr).flatMap (switched v))) ∧
    ∃ s', Reaches (next longMax numNodes port) (fun _ e ↦ ∃ i, e = .deliver i) s s' ∧
      s'.inFlight = []

/-! ## One frame -/

section Frame

variable {numNodes : ℕ} {buf : List UInt8}

theorem flatMap_ite_eq {α : Type*} {l : List ℕ} (hl : l.Nodup) (v : ℕ) (bs : List α) :
    (l.flatMap fun k ↦ if k = v then bs else []) = if v ∈ l then bs else [] := by
  induction l with
  | nil => rfl
  | cons k l ih =>
      obtain ⟨hk, hl⟩ := List.nodup_cons.mp hl
      rw [List.flatMap_cons, ih hl]
      by_cases hkv : k = v
      · subst hkv
        simp [hk]
      · simp [hkv, Ne.symm hkv]

/-- The destination address of a frame is what the sender looks at and the next byte. -/
theorem take_ethAlen (hlen : 14 ≤ buf.length) :
    buf.take ethAlen = buf.take (ethAlen - 1) ++ [buf.getD (ethAlen - 1) 0] := by
  have hlt : 5 < buf.length := by omega
  simp [ethAlen, List.take_add_one, List.getD, hlt]

theorem toNat_toUInt8 {n : ℕ} (h : n ≤ 255) : n.toUInt8.toNat = n := by
  simp only [Nat.toUInt8, UInt8.toNat_ofNat']
  omega

theorem take_eq_mymac (hlen : 14 ≤ buf.length) {v : ℕ} (hv : v ≤ 255) :
    buf.take ethAlen = mymac v ↔ buf.take (ethAlen - 1) = mac.take (ethAlen - 1) ∧
      (buf.getD (ethAlen - 1) 0).toNat = v := by
  rw [take_ethAlen hlen, mymac]
  constructor
  · intro h
    obtain ⟨hfirst, hlast⟩ := List.append_inj' h rfl
    exact ⟨hfirst, by rw [List.singleton_inj.mp hlast, toNat_toUInt8 hv]⟩
  · rintro ⟨hfirst, rfl⟩
    rw [hfirst, Nat.toUInt8_eq, UInt8.ofNat_toNat]

theorem broadcast_take (h : buf.take ethAlen = broadcast) :
    buf.take (ethAlen - 1) ≠ mac.take (ethAlen - 1) := by
  have htake : buf.take (ethAlen - 1) = (buf.take ethAlen).take (ethAlen - 1) := by
    rw [List.take_take]
    rfl
  rw [htake, h]
  decide

/-- With the port the sender sends to, a frame comes to the taps it should. -/
theorem mailTo_eq_switched {longMax : ℕ} (hnodes : numNodes ≤ 255) (v : Node numNodes)
    (x : Node numNodes × Frame longMax) :
    Mail.mailTo (fun x ↦ sender numNodes x.1 x.2) (arrive numNodes defaultPort) v x =
      switched v x := by
  obtain ⟨u, buf, hlen, -⟩ := x
  obtain ⟨v, hv, hvle⟩ := v
  have hne : buf.length ≠ 0 := by omega
  have hlong : ¬ buf.length < 12 := by omega
  have hmac := take_eq_mymac hlen (hvle.trans hnodes)
  simp only [Mail.mailTo, sender, switched, if_neg hne]
  by_cases hfirst : buf.take (ethAlen - 1) = mac.take (ethAlen - 1)
  · -- the address of a node
    have hbroadcast : buf.take ethAlen ≠ broadcast := fun h ↦ broadcast_take h hfirst
    rw [if_pos hfirst, List.flatMap_singleton]
    by_cases hnode : (buf.getD (ethAlen - 1) 0).toNat = v
    · have hmine : buf.take ethAlen = mymac v := hmac.mpr ⟨hfirst, hnode⟩
      simp only [arrive, hnode, and_self, if_true, receiver, if_neg hlong, hmine, true_or]
    · have hother : buf.take ethAlen ≠ mymac v := fun h ↦ hnode (hmac.mp h).2
      simp only [arrive, hnode, false_and, if_false, hother, hbroadcast]
  · have hother : buf.take ethAlen ≠ mymac v := fun h ↦ hfirst (hmac.mp h).1
    rw [if_neg hfirst, if_neg hother]
    by_cases hbroadcast : buf.take ethAlen = broadcast
    · have hreceived : receiver v buf = [buf] := by
        rw [receiver, if_neg hlong, if_pos (.inr hbroadcast)]
      have harrive : ∀ no, arrive numNodes defaultPort ⟨v, hv, hvle⟩ ⟨no, defaultPort, buf⟩ =
          if no = v then [buf] else [] := by
        intro no
        simp only [arrive, and_true, hreceived]
      have hnodup : ((List.range' 1 numNodes).filter (· ≠ u.1)).Nodup :=
        (List.nodup_range' ..).filter _
      rw [if_pos hbroadcast, List.flatMap_map]
      simp only [harrive, flatMap_ite_eq hnodup]
      refine if_congr ?_ rfl rfl
      have hrange : v ∈ List.range' 1 numNodes := by
        rw [List.mem_range'_1]
        omega
      simp [hrange, hbroadcast, Subtype.ext_iff]
    · simp [hbroadcast]

/-- With another port no frame is ever written. -/
theorem mailTo_eq_nil {longMax port : ℕ} (hport : port ≠ defaultPort) (v : Node numNodes)
    (x : Node numNodes × Frame longMax) :
    Mail.mailTo (fun x ↦ sender numNodes x.1 x.2) (arrive numNodes port) v x = [] := by
  refine List.flatMap_eq_nil_iff.mpr fun m hm ↦ ?_
  have hsent : m.port = defaultPort := by
    simp only [sender] at hm
    split_ifs at hm
    · simp at hm
    · rw [List.mem_singleton.mp hm]
    · obtain ⟨no, -, rfl⟩ := List.mem_map.mp hm
      rfl
    · simp at hm
  rw [arrive, if_neg fun h ↦ hport (h.2.symm.trans hsent)]

end Frame

/-! ## Runs -/

/-- A frame to node `n`. -/
def frameTo (n : ℕ) : List UInt8 := mymac n ++ List.replicate 8 0

theorem length_frameTo (n : ℕ) : (frameTo n).length = 14 := rfl

/-- The bridge delivers like a switch, for all frames and in whatever order messages arrive,
just when the port given with `-p` is the default one. -/
theorem deliversLikeSwitch_iff {longMax numNodes : ℕ} (hlong : 14 ≤ longMax)
    (hpos : 1 ≤ numNodes) (hnodes : numNodes ≤ 255) (port : ℕ) :
    DeliversLikeSwitch longMax numNodes port ↔ port = defaultPort := by
  constructor
  · intro h
    by_contra hport
    -- node 1 reads a frame to itself
    let u : Node numNodes := ⟨1, le_rfl, hpos⟩
    let f : Frame longMax := ⟨frameTo 1, (length_frameTo 1).ge, (length_frameTo 1).trans_le hlong⟩
    have hstart : Exec (next longMax numNodes port) Mail.start [] Mail.start := .nil
    have hread := hstart.snoc (e := .put (u, f)) rfl
    obtain ⟨-, -, s', ⟨tr', hdeliver, -⟩, hquiet⟩ := h _ _ hread
    have hexec := hread.trans hdeliver
    have hout := (h _ _ hexec).2.1 hquiet u
    have hnone : s'.out u = [] := by
      have hmail := Mail.out_perm_of_quiet hexec hquiet u
      rw [List.flatMap_eq_nil_iff.mpr fun x _ ↦ mailTo_eq_nil hport u x] at hmail
      exact hmail.eq_nil
    rw [hnone] at hout
    have hput : (u, f) ∈ Mail.puts ([] ++ [(Mail.start, Mail.Event.put (u, f))] ++ tr') := by
      simp [Mail.puts]
    have hswitched : switched u (u, f) = [] := List.flatMap_eq_nil_iff.mp hout.symm.eq_nil _ hput
    have htake : (frameTo 1).take ethAlen = mymac 1 := rfl
    simp [switched, f, u, htake] at hswitched
  · rintro rfl tr s hexec
    have hmail : ∀ v, (Mail.puts tr).flatMap (Mail.mailTo (fun x ↦ sender numNodes x.1 x.2)
        (arrive numNodes defaultPort) v) = (Mail.puts tr).flatMap (switched v) :=
      fun v ↦ List.flatMap_congr fun x _ ↦ mailTo_eq_switched hnodes v x
    refine ⟨fun v ↦ ?_, fun hquiet v ↦ ?_, Mail.reaches_quiet _ _ s⟩
    · rw [← hmail]
      exact Mail.out_subperm hexec v
    · rw [← hmail]
      exact Mail.out_perm_of_quiet hexec hquiet v

/-- Two nodes and the default port. -/
theorem deliversLikeSwitch_default : DeliversLikeSwitch 1500 2 2 :=
  (deliversLikeSwitch_iff (by decide) (by decide) (by decide) 2).mpr rfl

/-- Two nodes started with `-p 3`: a frame from node 1 to node 2 is not written. -/
theorem frame_lost_otherPort :
    ∃ tr s, Exec (next 14 2 3) Mail.start tr s ∧ Meets (fun _ _ ↦ True) tr ∧ s.inFlight = [] ∧
      s.out ⟨2, by decide⟩ = [] ∧
      (Mail.puts tr).flatMap (switched ⟨2, by decide⟩) = [frameTo 2] :=
  Exec.exists_of_run [.put (⟨1, by decide⟩, ⟨frameTo 2, by decide⟩), .deliver 0] (by decide)

end AxiomApps.Ethtap
