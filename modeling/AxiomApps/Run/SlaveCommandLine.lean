import AxiomApps.Run.CommandLine

/-!
# The command line of the slaves

A master that runs services starts `axiom-run` on the nodes, with a command line that it writes
from its own variables. A slave reads these words with the same loop. The words of the
application follow without a `--` before them.
-/

namespace AxiomApps.Run.CommandLine

open Decimal Getopt
open NodeSet (toInt32 decodeNodeArg setNodes scanInt cropNodes)
open Start (atoi decodeGdbArg)

/-! ## What the options can hold -/

def IsInt (z : ℤ) : Prop := -2 ^ 31 ≤ z ∧ z < 2 ^ 31

def IsLong (z : ℤ) : Prop := -2 ^ 63 ≤ z ∧ z < 2 ^ 63

/-- The signals that `-T` accepts. -/
def termmodes : List ℤ := [sigterm, sigint, sigabrt, sigquit, sigkill]

structure Options.Valid (o : Options) : Prop where
  termmode : o.termmode ∈ termmodes
  nodes : o.nodes < 2 ^ 64
  gdbNodes : o.gdbNodes < 2 ^ 64
  gdbPort : IsInt o.gdbPort
  port : IsInt o.port
  masterNode : IsInt o.masterNode
  masterPort : IsInt o.masterPort
  magic : IsLong o.magic

variable {o o' : Options} {arg : List Char}

theorem isInt_toInt32 (z : ℤ) : IsInt (toInt32 z) := by
  have hle := BitVec.le_toInt (BitVec.ofInt 32 z)
  have hlt := BitVec.toInt_lt (x := BitVec.ofInt 32 z)
  exact ⟨hle, hlt⟩

theorem isInt_atoi (s : List Char) : IsInt (atoi s) := isInt_toInt32 _

theorem isLong_clamp (z : ℤ) : IsLong (clamp z) := by
  simp only [IsLong, clamp]
  omega

theorem isLong_atol (s : List Char) : IsLong (atol s) := by
  unfold atol strtol
  dsimp only
  split
  · exact ⟨by decide, by decide⟩
  · exact isLong_clamp _

theorem isInt_scanInt {s : List Char} {r : ℤ × List Char} (h : scanInt s = some r) :
    IsInt r.1 := by
  obtain ⟨q, -, rfl⟩ := Option.map_eq_some_iff.mp h
  exact isInt_toInt32 _

theorem scanPair_isInt (s : List Char) :
    (∀ a ∈ (scanPair s).1, IsInt a) ∧ ∀ b ∈ (scanPair s).2, IsInt b := by
  rw [scanPair]
  split
  · exact ⟨nofun, nofun⟩
  · next h =>
      refine ⟨?_, ?_⟩
      · rintro _ ⟨⟩
        exact isInt_scanInt h
      · intro b hb
        obtain ⟨r, hr, rfl⟩ := Option.map_eq_some_iff.mp hb
        exact isInt_scanInt hr
  · next h =>
      refine ⟨?_, nofun⟩
      rintro _ ⟨⟩
      exact isInt_scanInt h

namespace Options.Valid

theorem initial : Options.Valid {} where
  termmode := List.mem_cons_self
  nodes := by decide
  gdbNodes := by decide
  gdbPort := ⟨by decide, by decide⟩
  port := ⟨by decide, by decide⟩
  masterNode := ⟨by decide, by decide⟩
  masterPort := ⟨by decide, by decide⟩
  magic := ⟨by decide, by decide⟩

theorem setProfile (h : o.Valid) (hset : setProfile o arg = .ok o') : o'.Valid := by
  unfold CommandLine.setProfile at hset
  dsimp only at hset
  split_ifs at hset
  · cases hset
    exact { h with termmode := .tail _ (.tail _ (.tail _ (.head _))) }
  · cases hset
    exact { h with }
  · cases hset
    exact { h with }

theorem setExtension (h : o.Valid) (hset : setExtension o arg = .ok o') : o'.Valid := by
  unfold CommandLine.setExtension at hset
  dsimp only at hset
  split_ifs at hset
  cases hset
  exact { h with }

theorem setTermmode (h : o.Valid) (hset : setTermmode o arg = .ok o') : o'.Valid := by
  unfold CommandLine.setTermmode at hset
  dsimp only at hset
  split_ifs at hset with hmode
  cases hset
  refine { h with termmode := ?_ }
  simp only [termmodes, List.mem_cons, List.not_mem_nil, or_false]
  tauto

theorem setExitmode (h : o.Valid) (hset : setExitmode o arg = .ok o') : o'.Valid := by
  unfold CommandLine.setExitmode at hset
  split at hset
  · cases hset
  · cases hset
    exact { h with }

theorem setNodesArg (h : o.Valid) (hset : setNodesArg o arg = .ok o') : o'.Valid := by
  unfold CommandLine.setNodesArg at hset
  split at hset
  · cases hset
  · next hnodes =>
      cases hset
      exact { h with nodes := NodeSet.setNodes_lt hnodes }

theorem setNumnodes (h : o.Valid) (hset : setNumnodes o arg = .ok o') : o'.Valid := by
  unfold CommandLine.setNumnodes at hset
  split at hset
  · cases hset
  · next hnodes =>
      cases hset
      exact { h with nodes := NodeSet.setNodes_lt hnodes }

theorem setGdb (h : o.Valid) (hset : setGdb o arg = .ok o') : o'.Valid := by
  unfold CommandLine.setGdb at hset
  split_ifs at hset with hcolon
  split at hset
  · cases hset
  · next hgdb =>
      cases hset
      rw [decodeGdbArg, if_pos hcolon] at hgdb
      obtain ⟨m, hm, hr⟩ := Option.map_eq_some_iff.mp hgdb
      cases hr
      exact { h with gdbNodes := NodeSet.decodeNodeArg_lt hm, gdbPort := isInt_atoi _ }

theorem setMaster (h : o.Valid) (arg : List Char) : (setMaster o arg).Valid := by
  obtain ⟨hnode, hport⟩ := scanPair_isInt arg
  unfold CommandLine.setMaster
  split_ifs
  · refine { h with masterNode := ?_, masterPort := ?_ }
    · cases hr : (scanPair arg).1 with
      | none => simpa [hr] using h.masterNode
      | some a => simpa [hr] using hnode a hr
    · cases hr : (scanPair arg).2 with
      | none => simpa [hr] using h.masterPort
      | some b => simpa [hr] using hport b hr
  · exact { h with masterNode := isInt_atoi _ }

theorem withArg {arg : Option (List Char)} {f : List Char → Except Fault Options} {k : ℕ}
    (hf : ∀ a, f a = .ok o' → o'.Valid) (hset : withArg arg f = .ok (o', k)) : o'.Valid := by
  cases arg with
  | none => cases hset
  | some a =>
      rw [CommandLine.withArg] at hset
      cases ha : f a with
      | error e =>
          rw [ha] at hset
          cases hset
      | ok o₁ =>
          rw [ha] at hset
          cases hset
          exact hf a ha

theorem setService {opt : ServiceOption} {k : ℕ} (h : o.Valid)
    (hset : setService o opt = .ok (o', k)) : o'.Valid := by
  cases hset
  exact { h with }

/-- One turn of the loop, with its cases in the order of the source. -/
theorem setOption {item : Item Code} {words : List (List Char)} {k : ℕ} (h : o.Valid)
    (hset : setOption o item words = .ok (o', k)) : o'.Valid := by
  cases item with
  | unknown =>
      cases hset
      exact h
  | opt code arg =>
      unfold CommandLine.setOption at hset
      dsimp only at hset
      split at hset
      · exact withArg (fun _ ↦ h.setProfile) hset
      · exact withArg (fun _ ↦ h.setExtension) hset
      · refine withArg (fun a ha ↦ ?_) hset
        cases ha
        exact { h with }
      · exact h.setService hset
      · exact h.setService hset
      · cases hset
        exact { h with }
      · cases hset
        exact { h with }
      · exact h.setService hset
      · exact h.setService hset
      · exact h.setService hset
      · exact h.setService hset
      · exact h.setService hset
      · exact h.setService hset
      · exact h.setService hset
      · exact h.setService hset
      · exact h.setService hset
      · exact h.setService hset
      · exact withArg (fun _ ↦ h.setExitmode) hset
      · exact withArg (fun _ ↦ h.setTermmode) hset
      · exact withArg (fun _ ↦ h.setNodesArg) hset
      · exact withArg (fun _ ↦ h.setNumnodes) hset
      · exact withArg (fun _ ↦ h.setGdb) hset
      · cases hset
        exact { h with }
      · refine withArg (fun a ha ↦ ?_) hset
        cases ha
        exact { h with port := isInt_atoi a }
      · refine withArg (fun a ha ↦ ?_) hset
        cases ha
        exact h.setMaster a
      · refine withArg (fun a ha ↦ ?_) hset
        cases ha
        exact { h with magic := isLong_atol a }
      all_goals cases hset

/-- The whole loop. -/
theorem of_readOptions {args app : List (List Char)} (h : readOptions args = .ok (o, app)) :
    o.Valid :=
  (run_invariant (P := Options.Valid) (fun _ _ _ _ _ hst hset ↦ hst.setOption hset) h
    initial).1

end Options.Valid

/-! ## What a session can hold -/

structure Session.Valid (s : Session) : Prop where
  termmode : s.termmode ∈ termmodes
  nodes : s.nodes < 2 ^ 64
  gdbNodes : s.gdbNodes < 2 ^ 64
  gdbPort : IsInt s.gdbPort
  masterNode : IsInt s.masterNode ∧ s.masterNode ≠ -1
  masterPort : IsInt s.masterPort ∧ s.masterPort ≠ -1
  slavePort : IsInt s.slavePort ∧ s.slavePort ≠ -1
  magic : IsLong s.magic

variable {p : Platform} {s : Session} {args app : List (List Char)}

theorem session_eq_ok (h : session p args = .ok (s, app)) :
    ∃ o, readOptions args = .ok (o, app) ∧ check p o app = .ok s := by
  rw [session] at h
  cases hread : readOptions args with
  | error e =>
      rw [hread] at h
      cases h
  | ok r =>
      rw [hread] at h
      cases hcheck : check p r.1 r.2 with
      | error e => simp [Except.bind, hcheck, Except.map] at h
      | ok s' =>
          simp only [Except.bind, hcheck, Except.map, Except.ok.injEq, Prod.mk.injEq] at h
          obtain ⟨rfl, rfl⟩ := h
          exact ⟨r.1, rfl, hcheck⟩

theorem sessionNodes_lt {nodes : ℕ} (ho : o.Valid) (h : sessionNodes p o = some nodes) :
    nodes < 2 ^ 64 := by
  rw [sessionNodes] at h
  split_ifs at h
  · cases h
    exact ho.nodes
  · have hasked : NodeSet.nodesOfOptions [.nodes (NodeSet.nodeArg o.nodes)] = some o.nodes := by
      simp [NodeSet.nodesOfOptions, setNodes, NodeSet.decodeNodeArg_nodeArg ho.nodes]
    exact NodeSet.cropNodes_lt hasked h

theorem masterNode_valid (ho : o.Valid) : IsInt (masterNode p o) ∧ masterNode p o ≠ -1 := by
  have hlt := p.nodeId_lt
  rw [masterNode]
  split_ifs with hunset
  · exact ⟨⟨by decide, by decide⟩, by decide⟩
  · exact ⟨⟨by omega, by omega⟩, by omega⟩
  · exact ⟨ho.masterNode, hunset⟩

theorem masterPort_valid (ho : o.Valid) : IsInt (masterPort o) ∧ masterPort o ≠ -1 := by
  rw [masterPort]
  split_ifs with hport hunset hunset
  · exact ⟨⟨by decide, by decide⟩, by decide⟩
  · exact ⟨ho.port, hunset⟩
  · exact ⟨⟨by decide, by decide⟩, by decide⟩
  · exact ⟨ho.masterPort, hunset⟩

theorem slavePort_valid (ho : o.Valid) : IsInt (slavePort o) ∧ slavePort o ≠ -1 := by
  rw [slavePort]
  split_ifs with hport
  · exact ⟨ho.port, hport.1⟩
  · exact ⟨⟨by decide, by decide⟩, by decide⟩

theorem sessionMagic_valid (ho : o.Valid) : IsLong (sessionMagic p o) := by
  have hpos := p.time_pos
  rw [sessionMagic]
  split_ifs
  · exact ⟨by omega, p.time_lt⟩
  · exact ho.magic

theorem valid_of_check (ho : o.Valid) (h : check p o app = .ok s) : s.Valid := by
  unfold check at h
  dsimp only at h
  split_ifs at h
  split at h
  · cases h
  · next hnodes =>
      cases h
      exact {
        termmode := ho.termmode
        nodes := sessionNodes_lt ho hnodes
        gdbNodes := ho.gdbNodes
        gdbPort := ho.gdbPort
        masterNode := masterNode_valid ho
        masterPort := masterPort_valid ho
        slavePort := slavePort_valid ho
        magic := sessionMagic_valid ho }

/-- A session with an application, whose magic number is not 0 if it has slaves. -/
theorem magic_of_check (h : check p o app = .ok s) :
    app ≠ [] ∧ (s.slave = false → s.services ≠ .none → s.magic ≠ 0) := by
  unfold check at h
  dsimp only at h
  split_ifs at h with hre happ
  split at h
  · cases h
  · cases h
    refine ⟨happ, fun hslave hservices ↦ ?_⟩
    have hpos := p.time_pos
    dsimp only at hslave hservices ⊢
    rw [sessionMagic]
    split_ifs with hmagic
    · omega
    · tauto

/-! ## The options of the slaves -/

/-- The option `-m` of the slaves. -/
def masterArg (s : Session) : List Char :=
  snprintf 64 (intText s.masterNode ++ ',' :: intText s.masterPort)

/-- The option `-S` of the slaves. -/
def schedArg (s : Session) : List Char :=
  Sched.slaveOpt s.sched (.ofInt 32 s.masterNode) (.ofInt 32 s.masterPort)

/-- A service option, if the service is on. -/
def serviceOpt (on : Bool) (c : Char) (opt : ServiceOption) :
    List ((Char × Option (List Char)) × (Options → Options)) :=
  if on then [((c, none), fun o ↦ { o with services := o.services.set opt })] else []

/-- The options a master writes, each with what it is to mean. -/
def slaveOpts (s : Session) : List ((Char × Option (List Char)) × (Options → Options)) :=
  [(('s', none), fun o ↦ { o with slave := true }),
    (('n', some (NodeSet.nodeArg s.nodes)), fun o ↦ { o with nodes := s.nodes }),
    (('p', some (snprintf 64 (intText s.slavePort))), fun o ↦ { o with port := s.slavePort }),
    (('m', some (masterArg s)),
      fun o ↦ { o with masterNode := s.masterNode, masterPort := s.masterPort }),
    (('S', some (schedArg s)),
      fun o ↦ { o with sched := (Sched.decodeopt o.sched (some (schedArg s))).1 }),
    (('u', some ['.', '*']), fun o ↦ { o with envstr := ['.', '*'] }),
    (('x', some (snprintf 64 (intText s.magic))), fun o ↦ { o with magic := s.magic })] ++
  serviceOpt s.services.redirect 'r' .redirect ++ serviceOpt s.services.barrier 'b' .barrier ++
  serviceOpt s.services.exit 'e' .exit ++ serviceOpt s.services.kill 'k' .kill ++
  serviceOpt s.services.rpc 'c' .rpc ++
  (if s.termmode ≠ sigterm then
    [(('T', some (snprintf 64 (intText s.termmode))), fun o ↦ { o with termmode := s.termmode })]
  else []) ++
  (if s.gdbNodes ≠ 0 then
    [(('g', some (Start.gdbArg s.gdbNodes s.gdbPort)),
      fun o ↦ { o with gdbNodes := s.gdbNodes, gdbPort := s.gdbPort })]
  else [])

/-- What these options set. -/
def slaveOptions (s : Session) : Options where
  services := { s.services with allocator := false }
  termmode := s.termmode
  envstr := ['.', '*']
  sched := (Sched.decodeopt Sched.initial (some (schedArg s))).1
  nodes := s.nodes
  gdbNodes := s.gdbNodes
  gdbPort := if s.gdbNodes = 0 then 0 else s.gdbPort
  slave := true
  port := s.slavePort
  masterNode := s.masterNode
  masterPort := s.masterPort
  magic := s.magic

theorem slaveArgs_eq (s : Session) (app : List (List Char)) :
    slaveArgs s app = render ((slaveOpts s).map Prod.fst) ++ app := by
  have hite : ∀ (q : Prop) [Decidable q]
      (l : List ((Char × Option (List Char)) × (Options → Options))),
      render ((if q then l else []).map Prod.fst) = if q then render (l.map Prod.fst) else [] := by
    intro q _ l
    split_ifs <;> rfl
  simp only [slaveArgs, slaveOpts, serviceOpt, List.map_append, render_append, hite]
  rfl

theorem foldl_serviceOpt (on : Bool) (c : Char) (opt : ServiceOption) (o : Options) :
    (serviceOpt on c opt).foldl (fun o x ↦ x.2 o) o =
      { o with services := if on then o.services.set opt else o.services } := by
  cases on <;> rfl

theorem foldl_slaveOpts (s : Session) :
    (slaveOpts s).foldl (fun o x ↦ x.2 o) {} = slaveOptions s := by
  have hservices : ∀ sv : Services, (fun sv₁ : Services ↦ if sv.rpc then sv₁.set .rpc else sv₁)
      ((fun sv₁ : Services ↦ if sv.kill then sv₁.set .kill else sv₁)
        ((fun sv₁ : Services ↦ if sv.exit then sv₁.set .exit else sv₁)
          ((fun sv₁ : Services ↦ if sv.barrier then sv₁.set .barrier else sv₁)
            (if sv.redirect then Services.none.set .redirect else .none)))) =
      { sv with allocator := false } := by
    rintro ⟨barrier, exit, redirect, rpc, allocator, kill⟩
    cases barrier <;> cases exit <;> cases redirect <;> cases rpc <;> cases kill <;> rfl
  simp only [slaveOpts, List.foldl_append, foldl_serviceOpt, List.foldl_cons, List.foldl_nil]
  rw [slaveOptions, ← hservices]
  by_cases hterm : s.termmode = sigterm <;> by_cases hgdb : s.gdbNodes = 0 <;>
    simp [hterm, hgdb]

/-! ## Reading them -/

theorem length_intText_long {z : ℤ} (h : IsLong z) : (intText z).length ≤ 20 := by
  obtain ⟨hlo, hhi⟩ := h
  have hlt : z.natAbs < 10 ^ 19 := by omega
  exact length_intText_le (by decide) hlt

theorem isLong_of_isInt {z : ℤ} (h : IsInt z) : IsLong z := by
  obtain ⟨hlo, hhi⟩ := h
  exact ⟨by omega, by omega⟩

theorem snprintf_intText {z : ℤ} (h : IsLong z) : snprintf 64 (intText z) = intText z :=
  snprintf_of_length ((length_intText_long h).trans_lt (by decide))

theorem clamp_of_isLong {z : ℤ} (h : IsLong z) : clamp z = z := by
  obtain ⟨hlo, hhi⟩ := h
  simp only [clamp]
  omega

theorem atol_intText {z : ℤ} (h : IsLong z) : atol (snprintf 64 (intText z)) = z := by
  have hread := strtol_intText z stops_nil
  rw [List.append_nil] at hread
  rw [snprintf_intText h, atol, hread, Option.map_some, Option.getD_some, clamp_of_isLong h]

theorem atoi_snprintf {z : ℤ} (h : IsInt z) : atoi (snprintf 64 (intText z)) = z := by
  rw [snprintf_intText (isLong_of_isInt h)]
  exact Start.atoi_intText h.1 h.2

theorem scanPair_text {a b : ℤ} (ha : IsInt a) (hb : IsInt b) :
    scanPair (intText a ++ ',' :: intText b) = (some a, some b) := by
  have hnode := NodeSet.scanInt_intText ha.1 ha.2 (Sched.stops_comma (intText b))
  have hport := NodeSet.scanInt_intText hb.1 hb.2 stops_nil
  rw [List.append_nil] at hport
  simp only [scanPair, hnode, hport]
  rfl

theorem masterArg_eq (hs : s.Valid) :
    masterArg s = intText s.masterNode ++ ',' :: intText s.masterPort := by
  have hnode := Start.length_intText hs.masterNode.1.1 hs.masterNode.1.2
  have hport := Start.length_intText hs.masterPort.1.1 hs.masterPort.1.2
  refine snprintf_of_length ?_
  simp only [List.length_append, List.length_cons]
  omega

theorem setMaster_masterArg (hs : s.Valid) (o : Options) : setMaster o (masterArg s) =
    { o with masterNode := s.masterNode, masterPort := s.masterPort } := by
  rw [setMaster, masterArg_eq hs, if_pos (by simp),
    scanPair_text hs.masterNode.1 hs.masterPort.1]
  rfl

theorem setTermmode_text {t : ℤ} (h : t ∈ termmodes) (o : Options) :
    setTermmode o (snprintf 64 (intText t)) = .ok { o with termmode := t } := by
  have hint : ∀ t ∈ termmodes, -2 ^ 31 ≤ t ∧ t < 2 ^ 31 ∧ t ≠ 0 := by decide
  obtain ⟨hlo, hhi, hne⟩ := hint t h
  have hmode : decodeTermmode (snprintf 64 (intText t)) = t := by
    rw [decodeTermmode, atoi_snprintf ⟨hlo, hhi⟩, if_neg hne]
  simp only [termmodes, List.mem_cons, List.not_mem_nil, or_false] at h
  rw [setTermmode, hmode]
  exact if_neg (by tauto)

theorem setGdb_gdbArg (hs : s.Valid) (o : Options) :
    setGdb o (Start.gdbArg s.gdbNodes s.gdbPort) =
      .ok { o with gdbNodes := s.gdbNodes, gdbPort := s.gdbPort } := by
  have hdecode := Start.decodeGdbArg_gdbArg hs.gdbNodes hs.gdbPort.1 hs.gdbPort.2
  have hcolon : ':' ∈ Start.gdbArg s.gdbNodes s.gdbPort := by
    by_contra hnone
    rw [decodeGdbArg, if_neg hnone] at hdecode
    cases hdecode
  rw [setGdb, if_neg (not_not.mpr hcolon), hdecode]

theorem setNodesArg_nodeArg (hs : s.Valid) (o : Options) :
    setNodesArg o (NodeSet.nodeArg s.nodes) = .ok { o with nodes := s.nodes } := by
  rw [setNodesArg, setNodes, NodeSet.decodeNodeArg_nodeArg hs.nodes]

theorem withArg_some {f : List Char → Except Fault Options} (h : f arg = .ok o') :
    withArg (some arg) f = .ok (o', 0) := by
  rw [withArg, h]
  rfl

theorem setOption_port (o : Options) (arg : List Char) (words : List (List Char)) :
    setOption o (.opt (.char 'p') (some arg)) words = .ok ({ o with port := atoi arg }, 0) := rfl

theorem setOption_master (o : Options) (arg : List Char) (words : List (List Char)) :
    setOption o (.opt (.char 'm') (some arg)) words = .ok (setMaster o arg, 0) := rfl

theorem setOption_magic (o : Options) (arg : List Char) (words : List (List Char)) :
    setOption o (.opt (.char 'x') (some arg)) words = .ok ({ o with magic := atol arg }, 0) := rfl

/-- Each option is in the option string, and one turn of the loop does what it is to do. -/
theorem slaveOpts_spec (hs : s.Valid) : ∀ x ∈ slaveOpts s, Fits spec.optstring x.1 ∧
    ∀ o words, setOption o (.opt (spec.ofChar x.1.1) x.1.2) words = .ok (x.2 o, 0) := by
  intro x hx
  simp only [slaveOpts, serviceOpt, List.mem_append, List.mem_cons, List.not_mem_nil, or_false,
    List.mem_ite_nil_right] at hx
  obtain ((((((((rfl | rfl | rfl | rfl | rfl | rfl | rfl) | ⟨-, rfl⟩) | ⟨-, rfl⟩) | ⟨-, rfl⟩) |
    ⟨-, rfl⟩) | ⟨-, rfl⟩) | ⟨-, rfl⟩) | ⟨-, rfl⟩) := hx
  · exact ⟨fits_none.mpr (by decide), fun _ _ ↦ rfl⟩
  · exact ⟨fits_some.mpr (by decide), fun o _ ↦ withArg_some (setNodesArg_nodeArg hs o)⟩
  · refine ⟨fits_some.mpr (by decide), fun o _ ↦ (setOption_port ..).trans ?_⟩
    rw [atoi_snprintf hs.slavePort.1]
  · refine ⟨fits_some.mpr (by decide), fun o _ ↦ (setOption_master ..).trans ?_⟩
    rw [setMaster_masterArg hs]
  · exact ⟨fits_some.mpr (by decide), fun _ _ ↦ rfl⟩
  · exact ⟨fits_some.mpr (by decide), fun _ _ ↦ rfl⟩
  · refine ⟨fits_some.mpr (by decide), fun o _ ↦ (setOption_magic ..).trans ?_⟩
    rw [atol_intText hs.magic]
  · exact ⟨fits_none.mpr (by decide), fun _ _ ↦ rfl⟩
  · exact ⟨fits_none.mpr (by decide), fun _ _ ↦ rfl⟩
  · exact ⟨fits_none.mpr (by decide), fun _ _ ↦ rfl⟩
  · exact ⟨fits_none.mpr (by decide), fun _ _ ↦ rfl⟩
  · exact ⟨fits_none.mpr (by decide), fun _ _ ↦ rfl⟩
  · exact ⟨fits_some.mpr (by decide), fun o _ ↦ withArg_some (setTermmode_text hs.termmode o)⟩
  · exact ⟨fits_some.mpr (by decide), fun o _ ↦ withArg_some (setGdb_gdbArg hs o)⟩

/-- The loop of a slave comes to the words of the application with the variables set as the
master has them. -/
theorem readOptions_slaveArgs (hs : s.Valid) (app : List (List Char)) :
    readOptions (slaveArgs s app) = run spec setOption (slaveOptions s) ⟨[], app⟩ := by
  rw [readOptions, slaveArgs_eq, run_render (fun x hx ↦ (slaveOpts_spec hs x hx).1)
    (fun x hx ↦ (slaveOpts_spec hs x hx).2), foldl_slaveOpts]

/-! ## The session of a slave -/

/-- The session of a master as its slaves are to have it: the allocator service is the
master's own affair, and so are the flags. -/
def slaveSession (s : Session) : Session where
  slave := true
  services := { s.services with allocator := false }
  flags := 0
  termmode := s.termmode
  envstr := ['.', '*']
  sched := (Sched.decodeopt Sched.initial (some (schedArg s))).1
  nodes := s.nodes
  gdbNodes := s.gdbNodes
  gdbPort := if s.gdbNodes = 0 then 0 else s.gdbPort
  masterNode := s.masterNode
  masterPort := s.masterPort
  slavePort := s.slavePort
  magic := s.magic

theorem check_slaveOptions (p : Platform) (hs : s.Valid) (hmagic : s.magic ≠ 0)
    (happ : app ≠ []) : check p (slaveOptions s) app = .ok (slaveSession s) := by
  have henv : (slaveOptions s).envstr.take (maxEnvRegexp - 1) = ['.', '*'] := rfl
  simp only [check, henv, p.regcomp_any, happ]
  simp [slaveOptions, sessionNodes, slaveSession, masterNode, masterPort, slavePort, sessionMagic,
    hs.masterNode.2, hs.masterPort.2, hs.slavePort.2, hmagic]

theorem session_slaveArgs_iff (p : Platform) (hs : s.Valid) (hmagic : s.magic ≠ 0)
    (happ : app ≠ []) : session p (slaveArgs s app) = .ok (slaveSession s, app) ↔
      ∀ w ∈ app.head?, NonOption w := by
  obtain ⟨w, words, rfl⟩ := List.exists_cons_of_ne_nil happ
  constructor
  · intro h w' hw'
    obtain rfl : w = w' := by simpa using hw'
    by_contra hopt
    obtain ⟨o, hread, -⟩ := session_eq_ok h
    rw [readOptions_slaveArgs hs] at hread
    have hle := (suffix_tail_of_run hread hopt).length_le
    rw [List.length_cons] at hle
    omega
  · intro hnon
    rw [session, readOptions_slaveArgs hs, run_of_ended (call_nonOption (hnon w rfl) words)]
    simp only [Except.bind, check_slaveOptions p hs hmagic happ]
    rfl

/-- Whatever a master has been asked for, a slave that it starts has the same nodes, ports and
magic number, the same services but for the allocator, and runs the same application, just if
the name of the application is not taken for an option. It never is unless it follows a
`--`. -/
theorem slave_session_iff (p p' : Platform) (h : session p args = .ok (s, app))
    (hmaster : s.slave = false) (hservices : s.services ≠ .none) :
    (session p' (slaveArgs s app) = .ok (slaveSession s, app) ↔
      ∀ w ∈ app.head?, NonOption w) ∧
    (['-', '-'] ∉ args → session p' (slaveArgs s app) = .ok (slaveSession s, app)) := by
  obtain ⟨o, hread, hcheck⟩ := session_eq_ok h
  have hs := valid_of_check (.of_readOptions hread) hcheck
  obtain ⟨happ, hmagic⟩ := magic_of_check hcheck
  have hiff := session_slaveArgs_iff p' hs (hmagic hmaster hservices) happ
  exact ⟨hiff, fun hend ↦ hiff.mpr (nonOption_of_run hread hend)⟩

/-- The first of three nodes. -/
def firstOfThree : Platform where
  regcomp _ := true
  regcomp_any := rfl
  nodeId := 1
  nodeId_lt := by decide
  numNodes := 3
  time := 1700000000
  time_pos := by decide
  time_lt := by decide

/-- The application `a` with the argument `-s`, and the exit service. -/
theorem slave_session_exit : ∃ s,
    session firstOfThree [['-', 'e'], ['a'], ['-', 's']] = .ok (s, [['a'], ['-', 's']]) ∧
    session firstOfThree (slaveArgs s [['a'], ['-', 's']]) =
      .ok (slaveSession s, [['a'], ['-', 's']]) := by
  have hread : readOptions [['-', 'e'], ['a'], ['-', 's']] =
      .ok ({ services := Services.none.set .exit }, [['a'], ['-', 's']]) := by
    have hcall : call spec ⟨[], [['-', 'e'], ['a'], ['-', 's']]⟩ =
        .found (.opt (.char 'e') none) ⟨[], [['a'], ['-', 's']]⟩ := rfl
    rw [readOptions, run_of_found hcall]
    exact run_of_ended (call_nonOption (by decide) _)
  obtain ⟨s, hs, hslave, hservices⟩ : ∃ s,
      session firstOfThree [['-', 'e'], ['a'], ['-', 's']] = .ok (s, [['a'], ['-', 's']]) ∧
      s.slave = false ∧ s.services ≠ .none := by
    rw [session, hread]
    exact ⟨_, rfl, rfl, by decide⟩
  exact ⟨s, hs, (slave_session_iff firstOfThree firstOfThree hs hslave hservices).2 (by decide)⟩

end AxiomApps.Run.CommandLine
