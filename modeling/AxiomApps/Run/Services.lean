import Mathlib.Tactic

/-!
# Services of axiom-run

Which services are on is decided by the options of the master, which passes them on to
the slaves it starts; each slave then starts the threads its services need. The nodes of
a run are those of a bit mask: a list without repetitions, in the order in which messages
to all of them are sent.
-/

namespace AxiomApps.Run

structure Services where
  barrier : Bool
  exit : Bool
  redirect : Bool
  rpc : Bool
  allocator : Bool
  kill : Bool
  deriving DecidableEq, Repr

/-- The options that set and clear bits of `services`. -/
inductive ServiceOption
  | redirect
  | noRedirect
  | barrier
  | noBarrier
  | rpc
  | noRpc
  | exit
  | noExit
  | kill
  | noKill
  | allocator
  | noAllocator
  | profileGasnet
  | profileOmpss
  | profileAll
  deriving DecidableEq, Repr

namespace Services

def none : Services := ⟨false, false, false, false, false, false⟩

/-- One turn of the option loop of `main`. -/
def set (sv : Services) : ServiceOption → Services
  | .redirect => { sv with redirect := true }
  | .noRedirect => { sv with redirect := false }
  | .barrier => { sv with barrier := true }
  | .noBarrier => { sv with barrier := false }
  | .rpc => { sv with rpc := true }
  | .noRpc => { sv with rpc := false }
  | .exit => { sv with exit := true }
  | .noExit => { sv with exit := false }
  | .kill => { sv with kill := true }
  | .noKill => { sv with kill := false }
  | .allocator => { sv with allocator := true }
  | .noAllocator => { sv with allocator := false }
  | .profileGasnet => ⟨true, true, true, true, true, true⟩
  | .profileOmpss => ⟨true, true, true, true, true, true⟩
  | .profileAll => { sv with redirect := true, rpc := true, barrier := true, allocator := true,
                             kill := true }

def ofOptions (opts : List ServiceOption) : Services :=
  opts.foldl set none

/-- What the master adds to the command line of a slave; the allocator service is its
own affair. -/
def slaveOptions (sv : Services) : List ServiceOption :=
  (if sv.redirect then [.redirect] else []) ++ (if sv.barrier then [.barrier] else []) ++
    (if sv.exit then [.exit] else []) ++ (if sv.kill then [.kill] else []) ++
    (if sv.rpc then [.rpc] else [])

def slave (sv : Services) : Services :=
  ofOptions sv.slaveOptions

theorem slave_eq (sv : Services) : sv.slave = { sv with allocator := false } := by
  obtain ⟨barrier, exit, redirect, rpc, allocator, kill⟩ := sv
  cases barrier <;> cases exit <;> cases redirect <;> cases rpc <;> cases kill <;> rfl

/-- `manage_slave_services` starts `recv_thread`. -/
def recvThread (sv : Services) : Bool :=
  sv.redirect || sv.exit || sv.kill

/-- `manage_slave_services` starts `sock_thread`. -/
def sockThread (sv : Services) : Bool :=
  sv.barrier || sv.rpc

end Services

/-- The nodes of a run, as `info->nodes` lists them. -/
structure Nodes (V : Type*) where
  toList : List V
  nodup : toList.Nodup
  mem : ∀ v, v ∈ toList

namespace Nodes

variable {V : Type*}

def nnodes (nodes : Nodes V) : ℕ := nodes.toList.length

/-- Two nodes. -/
def pair : Nodes Bool := ⟨[false, true], by decide, by decide⟩

theorem nnodes_pos (nodes : Nodes V) (v : V) : 0 < nodes.nnodes :=
  List.length_pos_of_mem (nodes.mem v)

/-- The number of nodes with a property grows by one when one node acquires it. -/
theorem countP_succ (nodes : Nodes V) {p q : V → Bool} {v : V} (hp : p v = false)
    (hq : q v = true) (hne : ∀ w, w ≠ v → q w = p w) :
    nodes.toList.countP q = nodes.toList.countP p + 1 := by
  obtain ⟨l₁, l₂, hl⟩ := List.append_of_mem (nodes.mem v)
  have hnodup := nodes.nodup
  rw [hl, List.nodup_append, List.nodup_cons] at hnodup
  obtain ⟨-, ⟨hv₂, -⟩, hdisj⟩ := hnodup
  have hcongr : ∀ l : List V, v ∉ l → l.countP q = l.countP p := by
    intro l hl
    apply List.countP_congr
    intro w hw
    rw [hne w (fun h ↦ hl (h ▸ hw))]
  have hv₁ : v ∉ l₁ := fun h ↦ hdisj v h v (by simp) rfl
  rw [hl, List.countP_append, List.countP_append, List.countP_cons_of_pos hq,
    List.countP_cons_of_neg (by simp [hp]), hcongr l₁ hv₁, hcongr l₂ hv₂]
  omega

end Nodes

end AxiomApps.Run
