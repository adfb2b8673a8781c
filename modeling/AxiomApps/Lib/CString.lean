import Mathlib.Data.List.TakeWhile
import Mathlib.Tactic

/-!
# C strings

A string is a sequence of bytes other than NUL; an array holds the string up to its first
NUL.
-/

@[ext] structure CString where
  bytes : List UInt8
  nul_notMem : 0 ∉ bytes
  deriving DecidableEq

namespace CString

/-- The string an array holds. -/
def ofArray (a : List UInt8) : CString where
  bytes := a.takeWhile (· ≠ 0)
  nul_notMem := fun h ↦ by simpa using List.mem_takeWhile_imp h

def length (s : CString) : ℕ := s.bytes.length

/-- What `strlcpy` makes of an array of at least `size` bytes; it returns the length of the
string it was given. -/
def strlcpy (src : CString) (dst : List UInt8) (size : ℕ) : List UInt8 :=
  let copied := src.bytes.take (size - 1)
  copied ++ 0 :: dst.drop (copied.length + 1)

theorem ofArray_append_nul (s : CString) (rest : List UInt8) :
    ofArray (s.bytes ++ 0 :: rest) = s := by
  have hne : ∀ b ∈ s.bytes, decide (b ≠ 0) = true := by
    intro b hb
    simpa using fun h : b = 0 ↦ s.nul_notMem (h ▸ hb)
  ext1
  change List.takeWhile _ _ = _
  rw [List.takeWhile_append_of_pos hne, List.takeWhile_cons_of_neg (by simp),
    List.append_nil]

/-- Ending an array at a later place does not change the string it holds. -/
theorem ofArray_set_nul (s : CString) (rest : List UInt8) {n : ℕ} (h : s.length ≤ n) :
    ofArray ((s.bytes ++ 0 :: rest).set n 0) = s := by
  rw [List.set_append_right _ _ h]
  cases n - s.bytes.length with
  | zero => exact ofArray_append_nul s rest
  | succ k => exact ofArray_append_nul s (rest.set k 0)

/-- The string and its NUL, if there is room for them. -/
theorem take_strlcpy (s : CString) (dst : List UInt8) {size : ℕ} (h : s.length < size) :
    (s.strlcpy dst size).take (s.length + 1) = s.bytes ++ [0] := by
  have hcopied : s.bytes.take (size - 1) = s.bytes :=
    List.take_of_length_le (Nat.le_sub_one_of_lt h)
  rw [strlcpy, hcopied, length, List.take_length_add_append]
  rfl

theorem length_strlcpy (s : CString) {dst : List UInt8} {size : ℕ} (hsize : 0 < size)
    (hdst : dst.length = size) : (s.strlcpy dst size).length = size := by
  simp only [strlcpy, List.length_append, List.length_cons, List.length_take, List.length_drop,
    hdst]
  omega

/-- How much of an array is the copied part of a string and its NUL. -/
theorem take_strlcpy_iff (s : CString) {dst : List UInt8} {size n : ℕ} (hsize : 0 < size)
    (hdst : dst.length = size) (hn : n ≤ size) :
    (s.strlcpy dst size).take n = s.bytes.take (size - 1) ++ [0] ↔
      n = min s.length (size - 1) + 1 := by
  have hcopied : (s.bytes.take (size - 1)).length = min s.length (size - 1) := by
    rw [List.length_take, length, min_comm]
  constructor
  · intro h
    have hlength := congrArg List.length h
    rwa [List.length_take, length_strlcpy s hsize hdst, min_eq_left hn, List.length_append,
      hcopied] at hlength
  · rintro rfl
    rw [strlcpy, ← hcopied, List.take_length_add_append]
    rfl

/-- The array holds the whole string exactly if there is room for it. -/
theorem ofArray_strlcpy_eq_iff (s : CString) (dst : List UInt8) {size : ℕ} (hsize : 0 < size) :
    ofArray (s.strlcpy dst size) = s ↔ s.length < size := by
  have hnul : 0 ∉ s.bytes.take (size - 1) := fun h ↦ s.nul_notMem (List.mem_of_mem_take h)
  have hcopied : ofArray (s.strlcpy dst size) = ⟨s.bytes.take (size - 1), hnul⟩ :=
    ofArray_append_nul ⟨s.bytes.take (size - 1), hnul⟩ _
  rw [hcopied, CString.ext_iff, List.take_eq_self_iff, length]
  omega

end CString
