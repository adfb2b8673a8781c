import AxiomApps.Lib.Decimal
import AxiomApps.Lib.Lines
import AxiomApps.Nic

/-!
# Routing tables in files

axiom-init can save the routing table of the hardware and load it from a file with a line for
each node: the number of the interface to reach it by. The table holds a set of interfaces for
each node, as a mask, and the writer takes the lowest one of each.
-/

namespace AxiomApps.TableFile

open Decimal

/-- What the machine does where C leaves it open: the trailing zeros of 0, and `1 << val` in a
byte for a `val` that an int cannot be shifted by. -/
structure Unspecified where
  ctzZero : BitVec 32
  shift : ℤ → IfMask

/-- `__builtin_ctzl` -/
def ctzl (u : Unspecified) (mask : IfMask) : ℤ :=
  if mask = 0 then u.ctzZero.toInt else mask.ctz.toNat

/-- `1 << val`, stored in a mask -/
def shl (u : Unspecified) (val : ℤ) : IfMask :=
  if 0 ≤ val ∧ val < 32 then (1#32 <<< val.toNat).setWidth 8 else u.shift val

section Files

variable (u : Unspecified) (nic : NicLimits)

/-- `axiom_rt_to_file`: the file written for the table of the hardware. -/
def axiomRtToFile (hardware : RoutingTable) : List Char :=
  ((List.range nic.nodesNum).map fun nid ↦ intText (ctzl u (hardware nid)) ++ ['\n']).flatten

/-- What a line makes of an entry; a line without a number counts as 0. -/
def readEntry (entry : IfMask) (line : List Char) : IfMask :=
  let val : ℤ := match strtol line with
    | some (val, _) => val
    | none => 0
  if 0 ≤ val ∨ val ≤ nic.interfacesNum - 1 then shl u val else entry

/-- `axiom_rt_from_file`: the table that is set, none if the file has too many lines. -/
def axiomRtFromFile (file : List Char) : Option RoutingTable :=
  let lines := Lines.lines '\n' file
  if nic.nodesNum < lines.length then none
  else some fun nid ↦ match lines[nid]? with
    | some line => readEntry u nic 0 line
    | none => 0

end Files

variable {u : Unspecified} {nic : NicLimits}

/-! ## One entry -/

/-- The range test of the reader lets every number through. -/
theorem readEntry_intText (entry : IfMask) {z : ℤ} (hz : clamp z = z) :
    readEntry u nic entry (intText z ++ ['\n']) = shl u z := by
  have hread := strtol_intText z (stops_cons (s := []) (show '\n'.isDigit = false by decide))
  rw [hz] at hread
  simp only [readEntry, hread]
  rw [if_pos]
  omega

theorem clamp_ctzl (mask : IfMask) : clamp (ctzl u mask) = ctzl u mask := by
  rw [ctzl]
  split_ifs
  · exact clamp_toInt _
  · have hlt : mask.ctz.toNat < 2 ^ 8 := mask.ctz.isLt
    simp only [clamp]
    omega

theorem shl_natCast : ∀ {i : ℕ}, i < 8 → shl u i = axiomCodifyRoutingMask i := by
  intro i hi
  rw [shl, if_pos (by omega), axiomCodifyRoutingMask]
  interval_cases i <;> rfl

theorem ctz_axiomCodifyRoutingMask :
    ∀ {i : ℕ}, i < 8 → (axiomCodifyRoutingMask i).ctz.toNat = i := by
  decide

/-- The masks that survive: a single interface, or none if what C leaves open happens to fit
together. -/
def Survives (u : Unspecified) (mask : IfMask) : Prop :=
  (∃ i < 8, mask = axiomCodifyRoutingMask i) ∨ mask = 0 ∧ shl u u.ctzZero.toInt = 0

theorem shl_ctzl_iff (mask : IfMask) : shl u (ctzl u mask) = mask ↔ Survives u mask := by
  rw [Survives]
  by_cases hzero : mask = 0
  · subst hzero
    have hnone : ¬ ∃ i < 8, (0 : IfMask) = axiomCodifyRoutingMask i := by decide
    simp only [ctzl, if_true, hnone, false_or, true_and]
  · have hlt : mask.ctz.toNat < 8 := BitVec.ctz_lt_iff_ne_zero.mpr hzero
    rw [ctzl, if_neg hzero, shl_natCast hlt]
    constructor
    · intro h
      exact .inl ⟨_, hlt, h.symm⟩
    · rintro (⟨i, hi, rfl⟩ | ⟨rfl, -⟩)
      · rw [ctz_axiomCodifyRoutingMask hi]
      · exact absurd rfl hzero

/-! ## The file -/

theorem newline_notMem_intText (z : ℤ) : '\n' ∉ intText z := by
  intro h
  rcases isDigit_of_mem_intText h with heq | hdigit
  · exact absurd heq (by decide)
  · exact absurd hdigit (by decide)

/-- The file has a line for each node, of which the reader makes a mask. -/
theorem axiomRtFromFile_axiomRtToFile (u : Unspecified) (nic : NicLimits)
    (hardware : RoutingTable) :
    ∃ table, axiomRtFromFile u nic (axiomRtToFile u nic hardware) = some table ∧
      ∀ nid < nic.nodesNum, table nid = shl u (ctzl u (hardware nid)) := by
  have hopen : ∀ l ∈ (List.range nic.nodesNum).map fun nid ↦ intText (ctzl u (hardware nid)),
      '\n' ∉ l := by
    intro l hl
    obtain ⟨nid, -, rfl⟩ := List.mem_map.mp hl
    exact newline_notMem_intText _
  have hlines : Lines.lines '\n' (axiomRtToFile u nic hardware) =
      (List.range nic.nodesNum).map fun nid ↦ intText (ctzl u (hardware nid)) ++ ['\n'] := by
    have hfile := Lines.lines_flatten_map hopen
    rwa [List.map_map] at hfile
  rw [axiomRtFromFile, hlines, if_neg (by simp)]
  refine ⟨_, rfl, fun nid hnid ↦ ?_⟩
  simp [hnid, readEntry_intText _ (clamp_ctzl _)]

/-- A saved table is loaded back, if and only if every node has a single interface in its mask,
or none and what C leaves open happens to fit together. -/
theorem table_loads_back_iff (u : Unspecified) (nic : NicLimits) (hardware : RoutingTable) :
    (∃ table, axiomRtFromFile u nic (axiomRtToFile u nic hardware) = some table ∧
      ∀ nid < nic.nodesNum, table nid = hardware nid) ↔
    ∀ nid < nic.nodesNum, (∃ i < 8, hardware nid = axiomCodifyRoutingMask i) ∨
      hardware nid = 0 ∧ shl u u.ctzZero.toInt = 0 := by
  obtain ⟨table, hload, hentries⟩ := axiomRtFromFile_axiomRtToFile u nic hardware
  rw [hload]
  constructor
  · rintro ⟨_, ⟨⟩, hall⟩ nid hnid
    exact (shl_ctzl_iff _).mp ((hentries nid hnid).symm.trans (hall nid hnid))
  · intro h
    exact ⟨table, rfl, fun nid hnid ↦
      (hentries nid hnid).trans ((shl_ctzl_iff _).mpr (h nid hnid))⟩

/-- Two links to node 1: the second one is lost. -/
theorem parallelLinks_lost :
    ∃ table, axiomRtFromFile ⟨64, fun _ ↦ 0⟩ fourIfNic
        (axiomRtToFile ⟨64, fun _ ↦ 0⟩ fourIfNic fun _ ↦ 0b11#8) = some table ∧
      table 1 = 0b01#8 := by
  obtain ⟨table, hload, hentries⟩ :=
    axiomRtFromFile_axiomRtToFile ⟨64, fun _ ↦ 0⟩ fourIfNic fun _ ↦ 0b11#8
  refine ⟨table, hload, (hentries 1 (by decide)).trans ?_⟩
  have hctz : ctzl ⟨64, fun _ ↦ 0⟩ 0b11#8 = (0 : ℕ) := by
    rw [ctzl, if_neg (by decide)]
    decide
  rw [hctz, shl_natCast (by decide)]
  rfl

end AxiomApps.TableFile
