import AxiomApps.Lib.Getopt
import AxiomApps.Run.NodeMask
import AxiomApps.Run.Options
import AxiomApps.Run.Sched
import AxiomApps.Run.Services
import AxiomApps.Run.Start

/-!
# The command line of axiom-run

`main` reads its options in a loop and keeps what they say in variables; the words after them
are the application. Master and slave are the same program: what follows the loop tells them
apart and fills in what the options left open.
-/

namespace AxiomApps.Run.CommandLine

open Decimal Getopt
open NodeSet (decodeNodeArg setNodes scanInt cropNodes)
open Start (atoi decodeGdbArg)

/-! ## Options -/

/-- The values of `getopt_long`: characters, and the numbers from 1024 on. -/
inductive Code
  | char (c : Char)
  | noRedirect
  | noExit
  | noBarrier
  | noRpc
  | noAllocator
  | noKill
  deriving DecidableEq, Repr

def longOptions : List (LongOption Code) :=
  [⟨"redirect".toList, .no, .char 'r'⟩,
    ⟨"no-redirect".toList, .no, .noRedirect⟩,
    ⟨"ident".toList, .optional, .char 'i'⟩,
    ⟨"exit".toList, .no, .char 'e'⟩,
    ⟨"no-exit".toList, .no, .noExit⟩,
    ⟨"kill".toList, .no, .char 'k'⟩,
    ⟨"no-kill".toList, .no, .noKill⟩,
    ⟨"exitmode".toList, .required, .char 'E'⟩,
    ⟨"termmode".toList, .required, .char 'T'⟩,
    ⟨"barrier".toList, .no, .char 'b'⟩,
    ⟨"no-barrier".toList, .no, .noBarrier⟩,
    ⟨"rpc".toList, .no, .char 'c'⟩,
    ⟨"no-rpc".toList, .no, .noRpc⟩,
    ⟨"slave".toList, .no, .char 's'⟩,
    ⟨"master".toList, .required, .char 'm'⟩,
    ⟨"nodes".toList, .required, .char 'n'⟩,
    ⟨"numnodes".toList, .required, .char 'N'⟩,
    ⟨"port".toList, .required, .char 'p'⟩,
    ⟨"env".toList, .required, .char 'u'⟩,
    ⟨"gdb".toList, .required, .char 'g'⟩,
    ⟨"allocator".toList, .no, .char 'a'⟩,
    ⟨"no-allocator".toList, .no, .noAllocator⟩,
    ⟨"profile".toList, .required, .char 'P'⟩,
    ⟨"extension".toList, .required, .char 'X'⟩,
    ⟨"magic".toList, .required, .char 'x'⟩,
    ⟨"help".toList, .no, .char 'h'⟩,
    ⟨"deephelp".toList, .no, .char 'H'⟩,
    ⟨"version".toList, .no, .char 'V'⟩,
    ⟨"sched".toList, .optional, .char 'S'⟩]

def spec : Spec Code where
  optstring := "rekbcasp:E:T:P:X:m:x:hHn:N:u:g:i::VS:".toList
  ofChar := .char
  long := longOptions

/-- How the program ends while it reads its command line. -/
inductive Fault
  /-- the text of `_usage`, and the argument of `exit` -/
  | usage (text : String) (code : ℤ)
  /-- one of the texts of `decode_node_arg` -/
  | nodeArg
  | help
  | deepHelp
  | version
  /-- `strncat` writes past the end of `envstr` -/
  | overflow
  /-- `optarg` is null where an argument is read -/
  | null
  | noApplication
  | noMagic
  /-- `lassert` -/
  | noNodes
  deriving DecidableEq, Repr

/-- `MAXENVREGEXP` -/
def maxEnvRegexp : ℕ := 2048

def sigint : ℤ := 2
def sigquit : ℤ := 3
def sigabrt : ℤ := 6
def sigkill : ℤ := 9
def sigterm : ℤ := 15

/-- The variables that options set. -/
structure Options where
  services : Services := .none
  flags : ℕ := 0
  termmode : ℤ := sigterm
  envstr : List Char := "PATH|SHELL|AXIOM_.*|EXTRAE_.*".toList
  sched : Sched.Params := Sched.initial
  nodes : ℕ := 0
  gdbNodes : ℕ := 0
  gdbPort : ℤ := 0
  slave : Bool := false
  port : ℤ := -1
  masterNode : ℤ := -1
  masterPort : ℤ := -1
  magic : ℤ := 0

def strcasecmp (s t : List Char) : Bool := s.map Char.toLower = t.map Char.toLower

/-- The signal `-T` names, by its number or its name. -/
def decodeTermmode (arg : List Char) : ℤ :=
  let mode := atoi arg
  if mode = 0 then
    if strcasecmp arg "TERM".toList then sigterm
    else if strcasecmp arg "QUIT".toList then sigquit
    else if strcasecmp arg "INT".toList then sigint
    else if strcasecmp arg "ABRT".toList then sigabrt
    else if strcasecmp arg "KILL".toList then sigkill
    else mode
  else mode

def atol (s : List Char) : ℤ := ((strtol s).map Prod.fst).getD 0

/-- `sscanf` with `%d,%d`: what is not there is not stored. -/
def scanPair (s : List Char) : Option ℤ × Option ℤ :=
  match scanInt s with
  | none => (none, none)
  | some (a, ',' :: rest) => (some a, (scanInt rest).map Prod.fst)
  | some (a, _) => (some a, none)

def setProfile (o : Options) (arg : List Char) : Except Fault Options :=
  let flags opt := (setFlags o.flags opt).getD o.flags
  if arg = "gasnet".toList then
    .ok { o with
      services := o.services.set .profileGasnet
      flags := flags .profileGasnet
      termmode := sigquit
      envstr := "PATH|SHELL|AXIOM_.*|GASNET_.*|EXTRAE_.*".toList }
  else if arg = "ompss".toList then
    .ok { o with
      services := o.services.set .profileOmpss
      flags := flags .profileOmpss
      envstr :=
        "PATH|SHELL|AXIOM_.*|GASNET_.*|NX_.*|EXTRAE_.*|LD_LIBRARY_PATH|LD_PRELOAD".toList }
  else if arg = "all".toList then
    .ok { o with services := o.services.set .profileAll, flags := flags .profileAll }
  else .error (.usage "error on -P and/or --profile argument" (-1))

def setExtension (o : Options) (arg : List Char) : Except Fault Options :=
  if arg = "vimar".toList then
    let envstr := o.envstr ++ "|GST_.*|OPENCV_.*".toList
    if envstr.length < maxEnvRegexp then .ok { o with envstr := envstr } else .error .overflow
  else .error (.usage "error on -X and/or --extension argument" (-1))

def setTermmode (o : Options) (arg : List Char) : Except Fault Options :=
  let mode := decodeTermmode arg
  if mode ≠ sigterm ∧ mode ≠ sigint ∧ mode ≠ sigabrt ∧ mode ≠ sigquit ∧ mode ≠ sigkill then
    .error (.usage "error on -T|--termmode: bad argument\n" (-1))
  else .ok { o with termmode := mode }

def setGdb (o : Options) (arg : List Char) : Except Fault Options :=
  if ':' ∉ arg then .error (.usage "error on gdb arg: no semicolon found\n" 1)
  else
    match decodeGdbArg arg with
    | none => .error .nodeArg
    | some (nodes, port) => .ok { o with gdbNodes := nodes, gdbPort := port }

def setMaster (o : Options) (arg : List Char) : Options :=
  if ',' ∈ arg then
    let r := scanPair arg
    { o with masterNode := r.1.getD o.masterNode, masterPort := r.2.getD o.masterPort }
  else { o with masterNode := atoi arg }

def setExitmode (o : Options) (arg : List Char) : Except Fault Options :=
  match setFlags o.flags (.exitmode (atoi arg)) with
  | none => .error (.usage "error on -E|--exitmode: mode must be between 0 and 4" (-1))
  | some flags => .ok { o with flags := flags }

def setNodesArg (o : Options) (arg : List Char) : Except Fault Options :=
  match setNodes (.nodes arg) with
  | none => .error .nodeArg
  | some nodes => .ok { o with nodes := nodes }

def setNumnodes (o : Options) (arg : List Char) : Except Fault Options :=
  match setNodes (.numnodes (atoi arg)) with
  | none =>
      .error (.usage "error on -N|--numnodes: number of nodes must be greather than zero\n" (-1))
  | some nodes => .ok { o with nodes := nodes }

/-- `-i` takes the next word for its argument if that begins with a digit, even if it has one. -/
def setIdent (o : Options) (arg : Option (List Char)) (words : List (List Char)) : Options × ℕ :=
  let next := words.head?.filter fun w ↦ w.head?.any Char.isDigit
  let mode := (next <|> arg).map atoi
  ({ o with flags := (setFlags o.flags (.ident mode)).getD o.flags },
    if next.isSome then 1 else 0)

/-- A case of the loop that uses `optarg`. -/
def withArg (arg : Option (List Char)) (f : List Char → Except Fault Options) :
    Except Fault (Options × ℕ) :=
  match arg with
  | none => .error .null
  | some arg => (f arg).map (·, 0)

def setService (o : Options) (opt : ServiceOption) : Except Fault (Options × ℕ) :=
  .ok ({ o with services := o.services.set opt }, 0)

/-- One turn of the option loop. A scheduling option that is rejected is reported, and the loop
goes on. -/
def setOption (o : Options) (item : Item Code) (words : List (List Char)) :
    Except Fault (Options × ℕ) :=
  match item with
  | .unknown => .ok (o, 0)
  | .opt code arg =>
      match code with
      | .char 'P' => withArg arg (setProfile o)
      | .char 'X' => withArg arg (setExtension o)
      | .char 'u' => withArg arg fun arg ↦ .ok { o with envstr := arg.take maxEnvRegexp }
      | .char 'r' => setService o .redirect
      | .noRedirect => setService o .noRedirect
      | .char 'i' => .ok (setIdent o arg words)
      | .char 'S' => .ok ({ o with sched := (Sched.decodeopt o.sched arg).1 }, 0)
      | .char 'b' => setService o .barrier
      | .noBarrier => setService o .noBarrier
      | .char 'c' => setService o .rpc
      | .noRpc => setService o .noRpc
      | .char 'e' => setService o .exit
      | .noExit => setService o .noExit
      | .char 'k' => setService o .kill
      | .noKill => setService o .noKill
      | .char 'a' => setService o .allocator
      | .noAllocator => setService o .noAllocator
      | .char 'E' => withArg arg (setExitmode o)
      | .char 'T' => withArg arg (setTermmode o)
      | .char 'n' => withArg arg (setNodesArg o)
      | .char 'N' => withArg arg (setNumnodes o)
      | .char 'g' => withArg arg (setGdb o)
      | .char 's' => .ok ({ o with slave := true }, 0)
      | .char 'p' => withArg arg fun arg ↦ .ok { o with port := atoi arg }
      | .char 'm' => withArg arg fun arg ↦ .ok (setMaster o arg)
      | .char 'x' => withArg arg fun arg ↦ .ok { o with magic := atol arg }
      | .char 'h' => .error .help
      | .char 'H' => .error .deepHelp
      | .char 'V' => .error .version
      | .char _ => .error (.usage "internal error on getopt_long()\n" (-1))

/-- The options and the words after them. -/
def readOptions (args : List (List Char)) : Except Fault (Options × List (List Char)) :=
  run spec setOption {} ⟨[], args⟩

/-! ## Arguments that are read -/

/-- The cases of the loop that use `optarg` without looking whether there is one. -/
def argCodes : List Code :=
  ['P', 'X', 'u', 'E', 'T', 'n', 'N', 'g', 'p', 'm', 'x'].map .char

/-- The text of the default case. -/
def internalError : Fault := .usage "internal error on getopt_long()\n" (-1)

/-- Both tables say that these options require an argument. -/
theorem required_of_takes {code : Code} {h : HasArg} (ht : Takes spec code h)
    (hcode : code ∈ argCodes) : h = .required := by
  obtain ⟨c, rfl, hc⟩ | ⟨o, ho, rfl, rfl⟩ := ht
  · have hall : spec.optstring.all (fun c ↦ Code.char c ∈ argCodes →
        lookup spec.optstring c = some .required) = true := by
      decide
    rw [of_decide_eq_true (List.all_eq_true.mp hall c (mem_of_lookup hc)) hcode] at hc
    exact (Option.some.inj hc).symm
  · have hall : ∀ o ∈ longOptions, o.val ∈ argCodes → o.hasArg = .required := by
      decide
    exact hall o ho hcode

/-- Options that take no argument, or that may lack one. -/
def otherCodes : List Code :=
  ['r', 'i', 'S', 'b', 'c', 'e', 'k', 'a', 's', 'h', 'H', 'V'].map .char ++
    [.noRedirect, .noBarrier, .noRpc, .noExit, .noKill, .noAllocator]

/-- The loop has a case for every option of the tables. -/
theorem mem_codes_of_takes {code : Code} {h : HasArg} (ht : Takes spec code h) :
    code ∈ argCodes ++ otherCodes := by
  obtain ⟨c, rfl, hc⟩ | ⟨o, ho, rfl, rfl⟩ := ht
  · have hall : spec.optstring.all (fun c ↦ c ≠ ':' →
        Code.char c ∈ argCodes ++ otherCodes) = true := by
      decide
    refine of_decide_eq_true (List.all_eq_true.mp hall c (mem_of_lookup hc)) ?_
    rintro rfl
    cases hc
  · have hall : ∀ o ∈ longOptions, o.val ∈ argCodes ++ otherCodes := by
      decide
    exact hall o ho

/-- A way to end that the author did not mean to happen. -/
def Fault.Internal (e : Fault) : Prop := e = .null ∨ e = internalError

instance : DecidablePred Fault.Internal := fun _ ↦ inferInstanceAs (Decidable (_ ∨ _))

section External

variable {o : Options} {arg : List Char} {e : Fault}

theorem external_setProfile (h : setProfile o arg = .error e) : ¬ e.Internal := by
  unfold setProfile at h
  dsimp only at h
  split_ifs at h
  cases h
  decide

theorem external_setExtension (h : setExtension o arg = .error e) : ¬ e.Internal := by
  unfold setExtension at h
  dsimp only at h
  split_ifs at h <;> cases h <;> decide

theorem external_setTermmode (h : setTermmode o arg = .error e) : ¬ e.Internal := by
  unfold setTermmode at h
  dsimp only at h
  split_ifs at h
  cases h
  decide

theorem external_setExitmode (h : setExitmode o arg = .error e) : ¬ e.Internal := by
  unfold setExitmode at h
  split at h <;> cases h
  decide

theorem external_setNodesArg (h : setNodesArg o arg = .error e) : ¬ e.Internal := by
  unfold setNodesArg at h
  split at h <;> cases h
  decide

theorem external_setNumnodes (h : setNumnodes o arg = .error e) : ¬ e.Internal := by
  unfold setNumnodes at h
  split at h <;> cases h
  decide

theorem external_setGdb (h : setGdb o arg = .error e) : ¬ e.Internal := by
  unfold setGdb at h
  split_ifs at h
  · split at h <;> cases h
    decide
  · cases h
    decide

theorem external_withArg {arg : Option (List Char)} {f : List Char → Except Fault Options}
    (h : withArg arg f = .error e) (harg : arg ≠ none)
    (hf : ∀ a, f a = .error e → ¬ e.Internal) : ¬ e.Internal := by
  obtain ⟨a, rfl⟩ := Option.ne_none_iff_exists'.mp harg
  refine hf a ?_
  rw [withArg] at h
  cases ha : f a with
  | error e' =>
      rw [ha] at h
      cases h
      rfl
  | ok o' =>
      rw [ha] at h
      cases h

/-- One turn of the loop, with its cases in the order of the source. -/
theorem external_setOption {code : Code} {arg : Option (List Char)} {words : List (List Char)}
    (hcode : code ∈ argCodes ++ otherCodes) (harg : code ∈ argCodes → arg ≠ none)
    (h : setOption o (.opt code arg) words = .error e) : ¬ e.Internal := by
  unfold setOption at h
  dsimp only at h
  split at h
  · exact external_withArg h (harg (by decide)) fun _ ↦ external_setProfile
  · exact external_withArg h (harg (by decide)) fun _ ↦ external_setExtension
  · exact external_withArg h (harg (by decide)) fun _ ha ↦ nomatch ha
  iterate 14 cases h
  · exact external_withArg h (harg (by decide)) fun _ ↦ external_setExitmode
  · exact external_withArg h (harg (by decide)) fun _ ↦ external_setTermmode
  · exact external_withArg h (harg (by decide)) fun _ ↦ external_setNodesArg
  · exact external_withArg h (harg (by decide)) fun _ ↦ external_setNumnodes
  · exact external_withArg h (harg (by decide)) fun _ ↦ external_setGdb
  · cases h
  iterate 3 exact external_withArg h (harg (by decide)) fun _ ha ↦ nomatch ha
  iterate 3
    cases h
    decide
  · simp_all [argCodes, otherCodes]

end External

theorem external_readOptions {args : List (List Char)} {e : Fault}
    (h : readOptions args = .error e) : ¬ e.Internal := by
  obtain ⟨o, s, item, s', hcall, herror⟩ := exists_of_run_error h
  cases item with
  | unknown => cases herror
  | opt code arg =>
      obtain ⟨has, htakes, harg⟩ := takes_of_found spec hcall
      refine external_setOption (mem_codes_of_takes htakes) (fun hcode hnone ↦ ?_) herror
      exact harg hnone (required_of_takes htakes hcode)

/-- No command line makes the loop use an argument that is not there, or come to its default
case. -/
theorem option_arguments_present (args : List (List Char)) :
    readOptions args ≠ .error .null ∧ readOptions args ≠ .error internalError :=
  ⟨fun h ↦ external_readOptions h (.inl rfl), fun h ↦ external_readOptions h (.inr rfl)⟩

/-! ## Master and slave -/

/-- `MY_DEFAULT_MASTER_PORT` -/
def myDefaultMasterPort : ℤ := 5

/-- `MY_DEFAULT_SLAVE_PORT` -/
def myDefaultSlavePort : ℤ := 6

/-- `MY_DEFAULT_MASTER_NODE` -/
def myDefaultMasterNode : ℤ := 0

/-- What the program finds on the node it runs on. -/
structure Platform where
  /-- `regcomp` accepts the expression -/
  regcomp : List Char → Bool
  regcomp_any : regcomp ['.', '*'] = true
  nodeId : ℕ
  nodeId_lt : nodeId < 2 ^ 8
  numNodes : ℕ
  time : ℤ
  time_pos : 0 < time
  time_lt : time < 2 ^ 63

/-- The variables after the checks of `main`. -/
structure Session where
  slave : Bool
  services : Services
  flags : ℕ
  termmode : ℤ
  envstr : List Char
  sched : Sched.Params
  nodes : ℕ
  gdbNodes : ℕ
  gdbPort : ℤ
  masterNode : ℤ
  masterPort : ℤ
  slavePort : ℤ
  magic : ℤ

def masterPort (o : Options) : ℤ :=
  let port := if o.port ≠ -1 ∧ o.slave = false then o.port else o.masterPort
  if port = -1 then myDefaultMasterPort else port

/-- No option sets `slave_port` itself. -/
def slavePort (o : Options) : ℤ :=
  if o.port ≠ -1 ∧ o.slave = true then o.port else myDefaultSlavePort

def masterNode (p : Platform) (o : Options) : ℤ :=
  if o.masterNode = -1 then if o.slave then myDefaultMasterNode else p.nodeId else o.masterNode

/-- The nodes of the run; only the master looks which there are. -/
def sessionNodes (p : Platform) (o : Options) : Option ℕ :=
  if o.slave then some o.nodes else cropNodes p.numNodes o.nodes

/-- A master that starts slaves makes up a magic number if it has none. -/
def sessionMagic (p : Platform) (o : Options) : ℤ :=
  if o.slave = false ∧ o.services ≠ .none ∧ o.magic = 0 then p.time else o.magic

/-- `main` between the option loop and the part for the master or the slave, where the device
can be opened. -/
def check (p : Platform) (o : Options) (app : List (List Char)) : Except Fault Session :=
  let envstr := o.envstr.take (maxEnvRegexp - 1)
  if p.regcomp envstr = false then
    .error (.usage "error on env flag: '%s' is not an extended regular expression\n" 1)
  else if app = [] then .error .noApplication
  else if o.slave ∧ o.magic = 0 then .error .noMagic
  else
    match sessionNodes p o with
    | none => .error .noNodes
    | some nodes =>
        .ok {
          slave := o.slave
          services := o.services
          flags := o.flags
          termmode := o.termmode
          envstr := envstr
          sched := o.sched
          nodes := nodes
          gdbNodes := o.gdbNodes
          gdbPort := o.gdbPort
          masterNode := masterNode p o
          masterPort := masterPort o
          slavePort := slavePort o
          magic := sessionMagic p o }

/-- The session and the application that the words after the program's name ask for. -/
def session (p : Platform) (args : List (List Char)) :
    Except Fault (Session × List (List Char)) :=
  (readOptions args).bind fun r ↦ (check p r.1 r.2).map (·, r.2)

/-- The words with which a master starts its slaves, after the program's name. -/
def slaveArgs (s : Session) (app : List (List Char)) : List (List Char) :=
  [['-', 's'], ['-', 'n'], NodeSet.nodeArg s.nodes, ['-', 'p'], snprintf 64 (intText s.slavePort),
    ['-', 'm'], snprintf 64 (intText s.masterNode ++ ',' :: intText s.masterPort),
    ['-', 'S'], Sched.slaveOpt s.sched (.ofInt 32 s.masterNode) (.ofInt 32 s.masterPort),
    ['-', 'u'], ['.', '*'], ['-', 'x'], snprintf 64 (intText s.magic)] ++
  (if s.services.redirect then [['-', 'r']] else []) ++
  (if s.services.barrier then [['-', 'b']] else []) ++
  (if s.services.exit then [['-', 'e']] else []) ++
  (if s.services.kill then [['-', 'k']] else []) ++
  (if s.services.rpc then [['-', 'c']] else []) ++
  (if s.termmode ≠ sigterm then [['-', 'T'], snprintf 64 (intText s.termmode)] else []) ++
  (if s.gdbNodes ≠ 0 then [['-', 'g'], Start.gdbArg s.gdbNodes s.gdbPort] else []) ++
  app

end AxiomApps.Run.CommandLine
