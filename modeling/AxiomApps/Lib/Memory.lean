import Mathlib.Data.List.GetD
import Mathlib.Data.Nat.Digits.Lemmas
import Mathlib.Tactic

/-!
# Byte memories

A memory is its content at every address. Writes and copies are known from two facts each: what
they leave inside the range they cover, and that they leave everything else. Numbers are stored
as their bytes in base 256, the lowest first.
-/

namespace Memory

variable {α : Type*}

/-- The list `bs` stored at address `a`. -/
def write (m : ℕ → α) (a : ℕ) (bs : List α) : ℕ → α :=
  fun x ↦ if a ≤ x then bs.getD (x - a) (m x) else m x

def read (m : ℕ → α) (a n : ℕ) : List α := (List.range n).map fun i ↦ m (a + i)

/-- `memcpy` inside one memory. -/
def copy (m : ℕ → α) (dst src n : ℕ) : ℕ → α := write m dst (read m src n)

@[simp] theorem length_read (m : ℕ → α) (a n : ℕ) : (read m a n).length = n := by
  simp [read]

theorem write_of_getElem? {m : ℕ → α} {a i : ℕ} {bs : List α} {b : α} (h : bs[i]? = some b) :
    write m a bs (a + i) = b := by
  rw [write, if_pos (Nat.le_add_right a i), Nat.add_sub_cancel_left, List.getD_eq_getElem?_getD, h,
    Option.getD_some]

theorem write_of_lt {m : ℕ → α} {a x : ℕ} (bs : List α) (h : x < a) : write m a bs x = m x :=
  if_neg (Nat.not_le.mpr h)

theorem write_of_le {m : ℕ → α} {a x : ℕ} {bs : List α} (h : a + bs.length ≤ x) :
    write m a bs x = m x := by
  rw [write, if_pos (by omega), List.getD_eq_default _ _ (by omega)]

theorem write_read_of_lt {m m' : ℕ → α} {a b n i : ℕ} (h : i < n) :
    write m a (read m' b n) (a + i) = m' (b + i) :=
  write_of_getElem? (by simp [read, h])

theorem copy_of_lt {m : ℕ → α} {dst src n i : ℕ} (h : i < n) :
    copy m dst src n (dst + i) = m (src + i) :=
  write_read_of_lt h

theorem copy_of_below {m : ℕ → α} {dst src n x : ℕ} (h : x < dst) : copy m dst src n x = m x :=
  write_of_lt _ h

/-! ## Numbers -/

/-- Byte `j` of a number. -/
def byte (w j : ℕ) : UInt8 := .ofNat (w / 256 ^ j)

def bytes (n w : ℕ) : List UInt8 := (List.range n).map (byte w)

def value (bs : List UInt8) : ℕ := Nat.ofDigits 256 (bs.map UInt8.toNat)

@[simp] theorem length_bytes (n w : ℕ) : (bytes n w).length = n := by
  simp [bytes]

theorem getElem?_bytes {n w j : ℕ} (h : j < n) : (bytes n w)[j]? = some (byte w j) := by
  simp [bytes, h]

theorem bytes_succ (n w : ℕ) : bytes (n + 1) w = byte w 0 :: bytes n (w / 256) := by
  rw [bytes, List.range_succ_eq_map, List.map_cons, List.map_map, bytes]
  congr 1
  refine List.map_congr_left fun j _ ↦ ?_
  rw [Function.comp_apply, byte, byte, Nat.pow_succ', Nat.div_div_eq_div_mul]

theorem value_bytes (n w : ℕ) : value (bytes n w) = w % 256 ^ n := by
  induction n generalizing w with
  | zero => simp [bytes, value, Nat.mod_one]
  | succ n ih =>
      have htail := ih (w / 256)
      rw [value] at htail
      rw [bytes_succ, value, List.map_cons, Nat.ofDigits_cons, htail, Nat.pow_succ', Nat.mod_mul]
      simp [byte]

theorem value_inj {bs bs' : List UInt8} (hlen : bs.length = bs'.length)
    (h : value bs = value bs') : bs = bs' := by
  have hlt : ∀ l : List UInt8, ∀ d ∈ l.map UInt8.toNat, d < 256 := by
    intro l d hd
    obtain ⟨b, -, rfl⟩ := List.mem_map.mp hd
    exact b.toNat_lt
  have hmap := Nat.ofDigits_inj_of_len_eq (by decide : 1 < 256) (by simpa using hlen) (hlt bs)
    (hlt bs') h
  exact List.map_injective_iff.mpr (fun _ _ ↦ UInt8.toNat_inj.mp) hmap

theorem value_read_eq_iff {m : ℕ → UInt8} {a n w : ℕ} (h : w < 256 ^ n) :
    value (read m a n) = w ↔ ∀ j < n, m (a + j) = byte w j := by
  have hbytes : value (bytes n w) = w := (value_bytes n w).trans (Nat.mod_eq_of_lt h)
  constructor
  · intro hw j hj
    have hlist : read m a n = bytes n w :=
      value_inj (by rw [length_read, length_bytes]) (hw.trans hbytes.symm)
    exact List.map_inj_left.mp hlist j (List.mem_range.mpr hj)
  · intro hw
    have hlist : read m a n = bytes n w :=
      List.map_congr_left fun j hj ↦ hw j (List.mem_range.mp hj)
    rw [hlist, hbytes]

end Memory
