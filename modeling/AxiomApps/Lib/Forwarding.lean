import Mathlib.Data.Fintype.Card
import Mathlib.Data.List.Chain
import Mathlib.Tactic

/-!
# Forwarding by masks

Nodes forward a message for one destination by a mask: bit `i` of the mask allows
the message to leave by port `i`. `ArrivesIn` says that the message reaches the
target after a given number of hops whichever allowed ports it takes; `Route` is a
simple path every node of which can only forward to the next one.
-/

namespace Forwarding

variable {X : Type*} {w : ℕ} (out : X → ℕ → Option X) (mask : X → BitVec w) (target : X)

/-- Some port is allowed at `x`, and every allowed one leads to `y`. -/
def Hop (x y : X) : Prop :=
  (∃ i, (mask x).getLsbD i = true) ∧ ∀ i, (mask x).getLsbD i = true → out x i = some y

structure Route (x : X) (path : List X) : Prop where
  head : path.head? = some x
  last : path.getLast? = some target
  nodup : path.Nodup
  hops : path.IsChain fun y z ↦ y ≠ target ∧ Hop out mask y z

/-- The message reaches the target in exactly `n` hops, whatever ports it takes. -/
def ArrivesIn : ℕ → X → Prop
  | 0, x => x = target
  | n + 1, x => x ≠ target ∧ (∃ i, (mask x).getLsbD i = true) ∧
      ∀ i, (mask x).getLsbD i = true → ∃ y, out x i = some y ∧ ArrivesIn n y

variable {out mask target}

/-- When every node of a set but the target can only forward to a node of the set of
smaller rank, every node of the set has a route. -/
theorem exists_route {P : X → Prop} (rank : X → ℕ)
    (hdown : ∀ x, P x → x ≠ target → ∃ y, P y ∧ rank y < rank x ∧ Hop out mask x y)
    {x : X} (hx : P x) : ∃ path, Route out mask target x path := by
  -- the ranks along the path also bound it, which keeps it simple
  suffices h : ∃ path, Route out mask target x path ∧ ∀ y ∈ path, rank y ≤ rank x by
    obtain ⟨path, hroute, _⟩ := h
    exact ⟨path, hroute⟩
  induction hr : rank x using Nat.strong_induction_on generalizing x with
  | _ n ih =>
      subst hr
      by_cases hxt : x = target
      · subst hxt
        exact ⟨[x], ⟨rfl, rfl, by simp, by simp⟩, by simp⟩
      · obtain ⟨y, hy, hlt, hhop⟩ := hdown x hx hxt
        obtain ⟨path, hroute, hle⟩ := ih (rank y) hlt hy rfl
        refine ⟨x :: path, ⟨rfl, ?_, ?_, ?_⟩, ?_⟩
        · rw [List.getLast?_cons, hroute.last]
          rfl
        · refine List.nodup_cons.mpr ⟨fun hmem ↦ ?_, hroute.nodup⟩
          exact absurd (hle x hmem) (not_le.mpr hlt)
        · refine List.isChain_cons.mpr ⟨?_, hroute.hops⟩
          intro z hz
          rw [hroute.head, Option.mem_some_iff] at hz
          subst hz
          exact ⟨hxt, hhop⟩
        · intro z hz
          rcases List.mem_cons.mp hz with rfl | hz
          · exact le_rfl
          · exact (hle z hz).trans hlt.le

/-- Messages that arrive in the image of a network arrive in the network. -/
theorem ArrivesIn.of_map {Y : Type*} {out' : Y → ℕ → Option Y} {mask' : Y → BitVec w} {f : X → Y}
    (hf : Function.Injective f) (hmask : ∀ x, x ≠ target → mask x = mask' (f x))
    (hout : ∀ x, x ≠ target → ∀ i, (mask x).getLsbD i = true → out' (f x) i = (out x i).map f)
    {n : ℕ} {x : X} (h : ArrivesIn out' mask' (f target) n (f x)) :
    ArrivesIn out mask target n x := by
  induction n generalizing x with
  | zero => exact hf h
  | succ n ih =>
      obtain ⟨hne, hsome, hall⟩ := h
      have hx : x ≠ target := fun heq ↦ hne (congrArg f heq)
      rw [← hmask x hx] at hsome hall
      refine ⟨hx, hsome, fun i hi ↦ ?_⟩
      obtain ⟨y', hy', harr⟩ := hall i hi
      rw [hout x hx i hi] at hy'
      obtain ⟨y, hy, rfl⟩ := Option.map_eq_some_iff.mp hy'
      exact ⟨y, hy, ih harr⟩

/-! ## One next hop

A node that has one next hop for the target, or none.
-/

section NextHop

variable {hop : X → Option X} {x y : X} {path path' : List X}

/-- The path is the one from its first node to the target. -/
inductive Leads (hop : X → Option X) (target : X) : List X → Prop
  | last : Leads hop target [target]
  | step {x y : X} {path : List X} : x ≠ target → hop x = some y → Leads hop target (y :: path) →
      Leads hop target (x :: y :: path)

namespace Leads

theorem unique (h : Leads hop target path) (h' : Leads hop target path')
    (hhead : path.head? = path'.head?) : path = path' := by
  induction h generalizing path' with
  | last =>
      cases h' with
      | last => rfl
      | step hne => exact absurd (Option.some.inj hhead).symm hne
  | step hne hhop _ ih =>
      cases h' with
      | last => exact absurd (Option.some.inj hhead) hne
      | step _ hhop' hrest =>
          obtain rfl := Option.some.inj hhead
          obtain rfl := Option.some.inj (hhop.symm.trans hhop')
          rw [ih hrest rfl]

theorem of_mem (h : Leads hop target path) (hx : x ∈ path) :
    ∃ path', Leads hop target (x :: path') ∧ path'.length < path.length := by
  induction h with
  | last =>
      obtain rfl := List.mem_singleton.mp hx
      exact ⟨[], .last, by simp⟩
  | step hne hhop hrest ih =>
      rcases List.mem_cons.mp hx with rfl | hx
      · exact ⟨_, .step hne hhop hrest, Nat.lt_succ_self _⟩
      · obtain ⟨path', hlead, hlt⟩ := ih hx
        exact ⟨path', hlead, hlt.trans (Nat.lt_succ_self _)⟩

/-- No node is passed twice: from its second visit on the path would be a shorter one. -/
theorem nodup (h : Leads hop target path) : path.Nodup := by
  induction h with
  | last => exact List.nodup_singleton _
  | step hne hhop hrest ih =>
      refine List.nodup_cons.mpr ⟨fun hmem ↦ ?_, ih⟩
      obtain ⟨path', hlead, hlt⟩ := hrest.of_mem hmem
      have heq := congrArg List.length (hlead.unique (.step hne hhop hrest) rfl)
      rw [List.length_cons, List.length_cons] at heq
      omega

/-- The target is the last node and no other. -/
theorem mem_zipIdx_target (h : Leads hop target path) {j k : ℕ} :
    (target, k) ∈ path.zipIdx j ↔ k + 1 = j + path.length := by
  induction h generalizing j with
  | last =>
      simp only [List.zipIdx_cons, List.zipIdx_nil, List.mem_singleton, Prod.mk.injEq, true_and,
        List.length_singleton]
      omega
  | @step x y path hne _ _ ih =>
      rw [List.zipIdx_cons, List.mem_cons, ih, Prod.mk.injEq]
      simp only [hne.symm, false_and, false_or, List.length_cons]
      omega

end Leads

/-- One next hop chosen at each node among those the masks allow leads to the target in as
many hops as the masks do. -/
theorem ArrivesIn.exists_leads {w : ℕ} {out : X → ℕ → Option X} {mask : X → BitVec w} {n : ℕ}
    (hhop : ∀ x, x ≠ target → ∃ i, (mask x).getLsbD i = true ∧ hop x = out x i)
    (h : ArrivesIn out mask target (n + 1) x) :
    ∃ path, path.length = n + 1 ∧ hop x = path.head? ∧ Leads hop target path := by
  induction n generalizing x with
  | zero =>
      obtain ⟨hne, -, hall⟩ := h
      obtain ⟨i, hi, heq⟩ := hhop x hne
      obtain ⟨y, hy, rfl⟩ := hall i hi
      exact ⟨[y], rfl, heq.trans hy, .last⟩
  | succ n ih =>
      obtain ⟨hne, -, hall⟩ := h
      obtain ⟨i, hi, heq⟩ := hhop x hne
      obtain ⟨y, hy, harr⟩ := hall i hi
      obtain ⟨path, hlen, hhead, hleads⟩ := ih harr
      obtain ⟨z, rest, rfl⟩ := List.exists_cons_of_length_eq_add_one hlen
      exact ⟨y :: z :: rest, congrArg (· + 1) hlen, heq.trans hy, .step harr.1 hhead hleads⟩

/-- Where `n` hops lead, if there are as many. -/
def walk (hop : X → Option X) (x : X) : ℕ → Option X
  | 0 => some x
  | n + 1 => (walk hop x n).bind hop

theorem walk_add (m n : ℕ) : walk hop x (m + n) = (walk hop x m).bind fun y ↦ walk hop y n := by
  induction n with
  | zero => simp [walk]
  | succ n ih =>
      rw [← Nat.add_assoc, walk, ih, Option.bind_assoc]
      rfl

theorem walk_eq_none_of_le {m n : ℕ} (hmn : m ≤ n) (h : walk hop x m = none) :
    walk hop x n = none := by
  obtain ⟨k, rfl⟩ := Nat.exists_eq_add_of_le hmn
  rw [walk_add, h, Option.bind_none]

/-- A walk that comes to a node again does not end. -/
theorem walk_ne_none_of_repeat {i j : ℕ} (hij : i < j) (hi : walk hop x i = some y)
    (hj : walk hop x j = some y) (n : ℕ) : walk hop x n ≠ none := by
  induction n using Nat.strong_induction_on with
  | _ n ih =>
      by_cases hn : n ≤ j
      · intro hnone
        rw [walk_eq_none_of_le hn hnone] at hj
        cases hj
      · -- from `j` on the walk is what it was from `i` on
        have hback : walk hop x n = walk hop x (i + (n - j)) := by
          have hn' : n = j + (n - j) := by omega
          conv_lhs => rw [hn']
          rw [walk_add, walk_add, hi, hj]
        rw [hback]
        exact ih (i + (n - j)) (by omega)

/-- Among finitely many nodes a walk ends, within as many hops, unless it comes to a node
again. -/
theorem walk_eq_none_iff [Fintype X] {n : ℕ} (hn : Fintype.card X ≤ n) :
    walk hop x n = none ↔
      ∀ i j y, i < j → walk hop x i = some y → walk hop x j ≠ some y := by
  constructor
  · intro h i j y hij hi hj
    exact walk_ne_none_of_repeat hij hi hj n h
  · intro h
    by_contra hsome
    have hdefined : ∀ k : Fin (n + 1), ∃ y, walk hop x k = some y := by
      intro k
      refine Option.ne_none_iff_exists'.mp fun hnone ↦ ?_
      exact hsome (walk_eq_none_of_le (Nat.le_of_lt_succ k.isLt) hnone)
    choose node hnode using hdefined
    obtain ⟨a, b, hne, heq⟩ := Fintype.exists_ne_map_eq_of_card_lt node (by simp; omega)
    rcases Nat.lt_or_gt_of_ne (Fin.val_ne_of_ne hne) with hlt | hgt
    · exact h a b (node a) hlt (hnode a) (heq ▸ hnode b)
    · exact h b a (node b) hgt (hnode b) (heq ▸ hnode a)

end NextHop

end Forwarding
