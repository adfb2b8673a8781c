import AxiomApps.Lib.Memory
import AxiomApps.Lib.Tiling

/-!
# Pieces of a memory

A message can be gathered from pieces of a memory, or scattered over them. Where the pieces lie
end to end this is one read, or one write.
-/

namespace Iovec

open Tiling

variable {α : Type*}

def gather (m : ℕ → α) (l : List (ℕ × ℕ)) : List α := l.flatMap fun c ↦ Memory.read m c.1 c.2

/-- Each piece is filled before the next. -/
def scatter (m : ℕ → α) : List (ℕ × ℕ) → List α → ℕ → α
  | [], _ => m
  | c :: l, bs => scatter (Memory.write m c.1 (bs.take c.2)) l (bs.drop c.2)

variable {m : ℕ → α} {l : List (ℕ × ℕ)} {lo hi : ℕ}

theorem read_append (m : ℕ → α) (a n k : ℕ) :
    Memory.read m a (n + k) = Memory.read m a n ++ Memory.read m (a + n) k := by
  simp [Memory.read, List.range_add, Nat.add_assoc, Function.comp_def]

theorem gather_of_tiles (h : Tiles lo l hi) : gather m l = Memory.read m lo (hi - lo) := by
  induction l generalizing lo with
  | nil =>
      obtain rfl : lo = hi := h
      simp [gather, Memory.read]
  | cons c l ih =>
      have hle := h.2.le
      have hsplit : hi - lo = c.2 + (hi - (lo + c.2)) := by omega
      rw [hsplit, read_append, ← ih h.2, gather, List.flatMap_cons, h.1]
      rfl

@[simp] theorem write_nil (m : ℕ → α) (a : ℕ) : Memory.write m a [] = m := by
  funext x
  simp [Memory.write]

theorem write_append (m : ℕ → α) (a : ℕ) (bs cs : List α) :
    Memory.write (Memory.write m a bs) (a + bs.length) cs = Memory.write m a (bs ++ cs) := by
  funext x
  obtain hlt | hle := lt_or_ge x (a + bs.length)
  · rw [Memory.write_of_lt _ hlt]
    by_cases ha : a ≤ x
    · rw [Memory.write, Memory.write, if_pos ha, if_pos ha,
        List.getD_append _ _ _ _ (by omega)]
    · rw [Memory.write, Memory.write, if_neg ha, if_neg ha]
  · rw [Memory.write, if_pos hle, Memory.write_of_le hle, Memory.write, if_pos (by omega),
      List.getD_append_right _ _ _ _ (by omega), Nat.sub_sub]

theorem scatter_of_tiles (h : Tiles lo l hi) {bs : List α} (hbs : bs.length ≤ hi - lo) :
    scatter m l bs = Memory.write m lo bs := by
  induction l generalizing lo m bs with
  | nil =>
      obtain rfl : lo = hi := h
      obtain rfl : bs = [] := List.eq_nil_of_length_eq_zero (by omega)
      simp [scatter]
  | cons c l ih =>
      rw [scatter, ih h.2 (by rw [List.length_drop]; omega), h.1]
      by_cases hlen : c.2 ≤ bs.length
      · have hsplit := write_append m lo (bs.take c.2) (bs.drop c.2)
        rwa [List.length_take, min_eq_left hlen, List.take_append_drop] at hsplit
      · rw [List.take_of_length_le (by omega), List.drop_eq_nil_of_le (by omega), write_nil]

theorem read_write (m : ℕ → α) (a : ℕ) (bs : List α) :
    Memory.read (Memory.write m a bs) a bs.length = bs := by
  refine List.ext_getElem (Memory.length_read ..) fun i _ hi ↦ ?_
  simp only [Memory.read, List.getElem_map, List.getElem_range]
  exact Memory.write_of_getElem? (List.getElem?_eq_getElem hi)

end Iovec
