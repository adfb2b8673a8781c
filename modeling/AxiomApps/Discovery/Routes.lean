import AxiomApps.Discovery.Knowledge

/-!
# Routes written during discovery

The two loops that write ranges of the routing table, and the downward routes they
make up: a board forwards to a child whatever is addressed to that child's part of
the numbering.
-/

namespace AxiomApps.Discovery

section Loops

variable {mask : IfMask} {r : RoutingTable}

theorem foldl_update_range' (first n k : ℕ) (r : RoutingTable) :
    (List.range' first n).foldl (fun r k ↦ Function.update r k mask) r k =
      if first ≤ k ∧ k < first + n then mask else r k := by
  induction n generalizing first r with
  | zero => simp
  | succ n ih =>
      rw [List.range'_succ, List.foldl_cons, ih]
      by_cases hk : k = first
      · subst hk
        simp
      · rw [Function.update_of_ne hk]
        have hiff : (first + 1 ≤ k ∧ k < first + 1 + n) ↔ (first ≤ k ∧ k < first + (n + 1)) := by
          omega
        simp only [hiff]

theorem routeUpTo_apply (first last k : ℕ) :
    routeUpTo mask first last r k = if first ≤ k ∧ k ≤ last then mask else r k := by
  rw [routeUpTo, foldl_update_range']
  have hiff : (first ≤ k ∧ k < first + (last + 1 - first)) ↔ (first ≤ k ∧ k ≤ last) := by omega
  simp only [hiff]

/-- The 8-bit loop ends when the last id is not the largest byte. -/
theorem routeSubtree_eq {last : ℕ} (hlast : last < 255) (fuel k : ℕ) (r : RoutingTable)
    (hfuel : last + 1 - k < fuel) :
    routeSubtree mask last fuel k r =
      some fun x ↦ if k ≤ x ∧ x ≤ last then mask else r x := by
  induction fuel generalizing k r with
  | zero => exact absurd hfuel (Nat.not_lt_zero _)
  | succ fuel ih =>
      rw [routeSubtree]
      by_cases hk : k ≤ last
      · rw [if_pos hk, Nat.mod_eq_of_lt (by omega), ih (k + 1) _ (by omega)]
        congr 1
        funext x
        by_cases hx : x = k
        · subst hx
          simp [hk]
        · rw [Function.update_of_ne hx]
          have hiff : (k + 1 ≤ x ∧ x ≤ last) ↔ (k ≤ x ∧ x ≤ last) := by omega
          simp only [hiff]
      · rw [if_neg hk]
        congr 1
        funext x
        rw [if_neg (by omega)]

end Loops

variable {nic : NicLimits} {V : Type*} [DecidableEq V] (net : Network nic V) (masterId : ℕ)

/-- Messages for `x` handed to `w` travel down to `x`, each hop to a board found
later. -/
inductive Down (order : List V) (mem : V → Mem) (x : V) : V → Prop
  | here : Down order mem x x
  | hop {w c : V} {i j : ℕ} (hwire : net.wire w i = some (c, j))
      (hroute : (mem w).routing (ident masterId order x) = axiomCodifyRoutingMask i)
      (hlt : order.idxOf w < order.idxOf c) (hc : Down order mem x c) : Down order mem x w

variable {net masterId} {order : List V} {mem mem' : V → Mem} {x w : V}

theorem Down.idxOf_le (h : Down net masterId order mem x w) :
    order.idxOf w ≤ order.idxOf x := by
  induction h with
  | here => exact le_rfl
  | hop _ _ hlt _ ih => omega

theorem Down.congr (h : Down net masterId order mem x w)
    (heq : ∀ z ∈ order, order.idxOf w ≤ order.idxOf z → order.idxOf z < order.idxOf x →
      (mem' z).routing (ident masterId order x) = (mem z).routing (ident masterId order x)) :
    Down net masterId order mem' x w := by
  induction h with
  | here => exact .here
  | @hop w c i j hwire hroute hlt hc ih =>
      have hcx := hc.idxOf_le
      have hw : w ∈ order :=
        List.idxOf_lt_length_iff.mp ((hlt.trans_le hcx).trans_le List.idxOf_le_length)
      refine .hop hwire ((heq w hw le_rfl (hlt.trans_le hcx)).trans hroute) hlt (ih ?_)
      intro z hz hzc
      exact heq z hz (hlt.le.trans hzc)

theorem Down.append {v : V} (h : Down net masterId order mem x w) (hx : x ∈ order) :
    Down net masterId (order ++ [v]) mem x w := by
  induction h with
  | here => exact .here
  | @hop w c i j hwire hroute hlt hc ih =>
      have hlen := List.idxOf_lt_length_of_mem hx
      have hcx := hc.idxOf_le
      have hw : w ∈ order := List.idxOf_lt_length_iff.mp (by omega)
      have hc' : c ∈ order := List.idxOf_lt_length_iff.mp (by omega)
      refine .hop hwire ?_ ?_ ih
      · rwa [ident_append_of_mem hx]
      · rwa [idxOf_append_of_mem hw, idxOf_append_of_mem hc']

end AxiomApps.Discovery
