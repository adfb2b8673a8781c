import AxiomApps.Lib.FifoNet

/-!
# Messages of which there is at most one

Tokens and other things that must not be duplicated travel through a network at
nodes and in messages. `Place` says where such a thing is, and `Confined` that
messages of its kind wait at that place only, one at most.
-/

namespace FifoNet

inductive Place (V ι : Type*)
  | nowhere
  | node (u : V)
  | port (v : V) (j : ι)
  deriving DecidableEq

variable {V σ ι μ : Type*} [DecidableEq V] [DecidableEq ι]

omit [DecidableEq V] [DecidableEq ι] in
def Place.ofWire : Option (V × ι) → Place V ι
  | none => .nowhere
  | some (v, j) => .port v j

/-- Messages of kind `p` wait at the given place only, and there is one at most. -/
def Confined (p : μ → Bool) (l : Place V ι) (s : Net V σ ι μ) : Prop :=
  ∀ v j, (s.chan v j).countP p ≤ if l = .port v j then 1 else 0

namespace Confined

variable {p : μ → Bool} {l : Place V ι} {s s' : Net V σ ι μ} {u v : V} {i j : ι} {m : μ}

theorem setNode (h : Confined p l s) (n : σ) : Confined p l (s.setNode u n) := h

/-- A waiting message of the kind shows where the place is. -/
theorem eq_port (h : Confined p l s) (hm : m ∈ s.chan v j) (hp : p m = true) :
    l = .port v j := by
  by_contra hne
  have hle := h v j
  rw [if_neg hne] at hle
  exact absurd (List.countP_pos_iff.mpr ⟨m, hm, hp⟩) (by omega)

theorem put_of_not (h : Confined p l s) (hp : p m = false) (dest : Option (V × ι)) :
    Confined p l (s.put dest m) := by
  rcases dest with - | ⟨v, j⟩
  · exact h
  · intro w k
    rw [Net.put_some_chan]
    split
    · rename_i hw
      obtain ⟨rfl, rfl⟩ := hw
      simpa [List.countP_append, hp] using h w k
    · exact h w k

/-- A message of the kind is put on a wire when none is waiting. -/
theorem put (h : Confined p l s) (hl : ∀ v j, l ≠ .port v j) (dest : Option (V × ι)) :
    Confined p (.ofWire dest) (s.put dest m) := by
  have hzero : ∀ w k, (s.chan w k).countP p = 0 := by
    intro w k
    have hle := h w k
    rw [if_neg (hl w k)] at hle
    omega
  intro w k
  rcases dest with - | ⟨v, j⟩
  · rw [Net.put_none, hzero]
    exact Nat.zero_le _
  · rw [Net.put_some_chan]
    by_cases hw : w = v ∧ k = j
    · obtain ⟨rfl, rfl⟩ := hw
      simp only [and_self, if_true, List.countP_append, hzero, List.countP_singleton, Place.ofWire]
      split <;> omega
    · rw [if_neg hw, hzero]
      exact Nat.zero_le _

theorem drop (h : Confined p l s) {q : List μ} (hchan : s.chan u i = m :: q) :
    Confined p l (s.setChan u i q) := by
  intro w k
  rw [Net.setChan_chan]
  split
  · rename_i hw
    obtain ⟨rfl, rfl⟩ := hw
    have hle := h w k
    rw [hchan, List.countP_cons] at hle
    omega
  · exact h w k

/-- When the message has been taken none is left, so the place can be anywhere. -/
theorem take (h : Confined p l s) (hp : p m = true) {q : List μ}
    (hchan : s.chan u i = m :: q) (l' : Place V ι) : Confined p l' (s.setChan u i q) := by
  have hl := h.eq_port (v := u) (j := i) (m := m) (by simp [hchan]) hp
  intro w k
  rw [Net.setChan_chan]
  split
  · rename_i hw
    obtain ⟨rfl, rfl⟩ := hw
    have hle := h w k
    rw [if_pos hl, hchan, List.countP_cons, hp] at hle
    simp only [if_true] at hle
    have hzero : q.countP p = 0 := by omega
    rw [hzero]
    exact Nat.zero_le _
  · rename_i hw
    have hle := h w k
    rw [if_neg] at hle
    · rw [Nat.le_zero.mp hle]
      exact Nat.zero_le _
    · rw [hl]
      rintro heq
      cases heq
      exact hw ⟨rfl, rfl⟩

end Confined

end FifoNet
