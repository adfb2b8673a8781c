import Mathlib.Data.Fintype.Card
import Mathlib.Data.List.Nodup
import Mathlib.Tactic

/-!
# Depth-first search over numbered ports

Every vertex has ports `0, 1, …`, and a port may lead to another vertex. The search
visits a vertex, then the ports of that vertex in ascending order, going down every
port that leads to a vertex not visited before. `preorder` lists the vertices in the
order in which they are first visited.

The search is defined with a bound on its depth; `explore_push` and its companions
are the equations without the bound.
-/

structure PortGraph (V : Type*) where
  deg : V → ℕ
  next : V → ℕ → Option V

namespace PortGraph

variable {V : Type*} [DecidableEq V] (g : PortGraph V)

/-- One port of `u`, with `rec` for the visit of a new vertex. -/
def visitPort (rec : V → List V → List V) (u : V) (o : List V) (i : ℕ) : List V :=
  match g.next u i with
  | some v => if v ∈ o then o else rec v (o ++ [v])
  | none => o

/-- Visit all ports of `u`, which is the last of the vertices `o` visited so far. -/
def visit : ℕ → V → List V → List V
  | 0, _, o => o
  | fuel + 1, u, o => (List.range (g.deg u)).foldl (g.visitPort (visit fuel) u) o

variable [Fintype V]

def preorder (root : V) : List V :=
  g.visit (Fintype.card V + 1) root [root]

/-- The ports of `u` from port `i` on. -/
def explore (u : V) (i : ℕ) (o : List V) : List V :=
  (List.range' i (g.deg u - i)).foldl (g.visitPort (g.visit (Fintype.card V)) u) o

/-- What is left of a search: the pending vertices, innermost first, with their next
ports. -/
def resume : List (V × ℕ) → List V → List V
  | [], o => o
  | (u, i) :: st, o => resume st (g.explore u i o)

omit [Fintype V] in
/-- A visit keeps the list free of duplicates and only appends to it. -/
theorem visitPort_spec {rec : V → List V → List V}
    (hrec : ∀ v o, o.Nodup → (rec v o).Nodup ∧ o.length ≤ (rec v o).length)
    (u : V) {o : List V} (ho : o.Nodup) (i : ℕ) :
    (g.visitPort rec u o i).Nodup ∧ o.length ≤ (g.visitPort rec u o i).length := by
  unfold visitPort
  split
  · rename_i v _
    split
    · exact ⟨ho, le_rfl⟩
    · rename_i hv
      have hnew : (o ++ [v]).Nodup := ho.append (List.nodup_singleton v) (by simpa using hv)
      obtain ⟨hnodup, hlen⟩ := hrec v _ hnew
      refine ⟨hnodup, ?_⟩
      simp only [List.length_append, List.length_singleton] at hlen
      omega
  · exact ⟨ho, le_rfl⟩

omit [Fintype V] in
theorem foldl_visitPort_spec {rec : V → List V → List V}
    (hrec : ∀ v o, o.Nodup → (rec v o).Nodup ∧ o.length ≤ (rec v o).length)
    (u : V) (ports : List ℕ) {o : List V} (ho : o.Nodup) :
    (ports.foldl (g.visitPort rec u) o).Nodup ∧
      o.length ≤ (ports.foldl (g.visitPort rec u) o).length := by
  induction ports generalizing o with
  | nil => exact ⟨ho, le_rfl⟩
  | cons i ports ih =>
      obtain ⟨hnodup, hlen⟩ := g.visitPort_spec hrec u ho i
      obtain ⟨hnodup', hlen'⟩ := ih hnodup
      exact ⟨hnodup', hlen.trans hlen'⟩

omit [Fintype V] in
theorem visit_spec (fuel : ℕ) (u : V) {o : List V} (ho : o.Nodup) :
    (g.visit fuel u o).Nodup ∧ o.length ≤ (g.visit fuel u o).length := by
  induction fuel generalizing u o with
  | zero => exact ⟨ho, le_rfl⟩
  | succ fuel ih =>
      exact g.foldl_visitPort_spec (fun v o ho ↦ ih v ho) u _ ho

omit [Fintype V] in
/-- Two visits that agree on longer lists agree on a row of ports. -/
theorem foldl_visitPort_congr {rec rec' : V → List V → List V} {b : ℕ}
    (hrec : ∀ v o, o.Nodup → (rec v o).Nodup ∧ o.length ≤ (rec v o).length)
    (heq : ∀ v o, o.Nodup → b < o.length → rec v o = rec' v o)
    (u : V) (ports : List ℕ) {o : List V} (ho : o.Nodup) (hb : b ≤ o.length) :
    ports.foldl (g.visitPort rec u) o = ports.foldl (g.visitPort rec' u) o := by
  induction ports generalizing o with
  | nil => rfl
  | cons i ports ih =>
      have hport : g.visitPort rec u o i = g.visitPort rec' u o i := by
        unfold visitPort
        cases g.next u i with
        | none => rfl
        | some v =>
            by_cases hv : v ∈ o
            · simp [hv]
            · simp only [hv, if_false]
              have hnew : (o ++ [v]).Nodup :=
                ho.append (List.nodup_singleton v) (by simpa using hv)
              exact heq v _ hnew (by simp; omega)
      obtain ⟨hnodup, hlen⟩ := g.visitPort_spec hrec u ho i
      rw [List.foldl_cons, List.foldl_cons, ih hnodup (hb.trans hlen), hport]

/-- A bound on the depth that covers the vertices not yet visited is as good as any
larger one. -/
theorem visit_succ (fuel : ℕ) (u : V) {o : List V} (ho : o.Nodup)
    (hfuel : Fintype.card V ≤ o.length + fuel) :
    g.visit fuel u o = g.visit (fuel + 1) u o := by
  induction fuel generalizing u o with
  | zero =>
      -- everything has been visited, so no port leads on
      have hall : ∀ v, v ∈ o := by
        intro v
        by_contra hv
        have hlt := (ho.append (List.nodup_singleton v) (by simpa using hv)).length_le_card
        simp only [List.length_append, List.length_singleton] at hlt
        omega
      have hport : ∀ ports : List ℕ, ports.foldl (g.visitPort (g.visit 0) u) o = o := by
        intro ports
        induction ports with
        | nil => rfl
        | cons i ports ih =>
            have hi : g.visitPort (g.visit 0) u o i = o := by
              unfold visitPort
              cases g.next u i <;> simp [hall]
            rw [List.foldl_cons, hi, ih]
      exact (hport _).symm
  | succ fuel ih =>
      change (List.range (g.deg u)).foldl (g.visitPort (g.visit fuel) u) o =
        (List.range (g.deg u)).foldl (g.visitPort (g.visit (fuel + 1)) u) o
      refine g.foldl_visitPort_congr (b := o.length) (fun v o ↦ g.visit_spec fuel v) ?_ u _ ho
        le_rfl
      intro v o' ho' hlen
      exact ih v ho' (by omega)

theorem visit_card_eq_explore (u : V) {o : List V} (ho : o.Nodup) :
    g.visit (Fintype.card V) u o = g.explore u 0 o := by
  rw [g.visit_succ _ u ho (by omega)]
  simp [visit, explore, List.range_eq_range']

theorem preorder_eq_explore (root : V) : g.preorder root = g.explore root 0 [root] := by
  simp [preorder, visit, explore, List.range_eq_range']

/-! ## The equations of the search -/

theorem explore_of_le {u : V} {i : ℕ} (hi : g.deg u ≤ i) (o : List V) :
    g.explore u i o = o := by
  simp [explore, Nat.sub_eq_zero_of_le hi]

theorem explore_succ {u : V} {i : ℕ} (hi : i < g.deg u) (o : List V) :
    g.explore u i o =
      g.explore u (i + 1) (g.visitPort (g.visit (Fintype.card V)) u o i) := by
  have hlen : g.deg u - i = (g.deg u - (i + 1)) + 1 := by omega
  rw [explore, hlen, List.range'_succ, List.foldl_cons, explore]

theorem explore_skip {u : V} {i : ℕ} {o : List V}
    (hskip : ∀ v, g.next u i = some v → v ∈ o) :
    g.explore u i o = g.explore u (i + 1) o := by
  by_cases hi : i < g.deg u
  · rw [g.explore_succ hi]
    congr 1
    unfold visitPort
    cases hv : g.next u i with
    | none => rfl
    | some v => simp [hskip v hv]
  · rw [g.explore_of_le (by omega), g.explore_of_le (by omega)]

/-- A port that leads to a new vertex: that vertex first, then the remaining ports. -/
theorem explore_push {u v : V} {i : ℕ} {o : List V} (ho : o.Nodup) (hi : i < g.deg u)
    (hv : g.next u i = some v) (hnew : v ∉ o) :
    g.explore u i o = g.explore u (i + 1) (g.explore v 0 (o ++ [v])) := by
  have hnodup : (o ++ [v]).Nodup := ho.append (List.nodup_singleton v) (by simpa using hnew)
  rw [g.explore_succ hi, ← g.visit_card_eq_explore v hnodup]
  simp [visitPort, hv, hnew]

end PortGraph
