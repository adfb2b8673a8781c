import Mathlib.Data.List.TakeWhile
import Mathlib.Data.Nat.Digits.Lemmas
import Mathlib.Tactic

/-!
# Unsigned numbers in several bases

`strtoull` with base 0 takes the base from the text: a `0x` stands for 16, a leading zero for
8. The `%x` of `scanf` reads base 16 with or without the `0x`. Numbers have 64 bits. A text that
was cut off is read as the quotient by a power of the base.
-/

namespace Numeral

def isSpace (c : Char) : Bool := c ∈ [' ', '\t', '\n', '\x0b', '\x0c', '\r']

def sign : List Char → Bool × List Char
  | '-' :: s => (true, s)
  | '+' :: s => (false, s)
  | s => (false, s)

def digitVal (c : Char) : Option ℕ :=
  if '0' ≤ c ∧ c ≤ '9' then some (c.toNat - '0'.toNat)
  else if 'a' ≤ c ∧ c ≤ 'f' then some (c.toNat - 'a'.toNat + 10)
  else if 'A' ≤ c ∧ c ≤ 'F' then some (c.toNat - 'A'.toNat + 10)
  else none

def isDigitOf (base : ℕ) (c : Char) : Bool := (digitVal c).any (· < base)

def value (base : ℕ) (ds : List Char) : ℕ :=
  ds.foldl (fun n c ↦ base * n + (digitVal c).getD 0) 0

def text (base n : ℕ) : List Char :=
  if n = 0 then ['0'] else (Nat.digits base n).reverse.map Nat.digitChar

/-- `%lx` -/
def hexText (n : ℕ) : List Char := text 16 n

/-- The unsigned number for a sign and a value: a value that is too large is replaced by the
greatest number, and a minus is applied modulo `2 ^ 64`. -/
def saturate (neg : Bool) (v : ℕ) : ℕ :=
  if 2 ^ 64 ≤ v then 2 ^ 64 - 1 else if neg then (2 ^ 64 - v) % 2 ^ 64 else v

/-- The base a text asks for, and its digits. -/
def baseOf : List Char → ℕ × List Char
  | '0' :: 'x' :: s => (16, s)
  | '0' :: 'X' :: s => (16, s)
  | '0' :: s => (8, '0' :: s)
  | s => (10, s)

/-- `strtoull` and `strtoul` with base 0; without a number they return 0. -/
def strtoull (s : List Char) : ℕ :=
  let t := sign (s.dropWhile isSpace)
  let r := baseOf t.2
  saturate t.1 (value r.1 (r.2.takeWhile (isDigitOf r.1)))

def dropHexMark : List Char → List Char
  | '0' :: 'x' :: s => s
  | '0' :: 'X' :: s => s
  | s => s

/-- The `%lx` of `sscanf`, none if there is no number. -/
def scanHex (s : List Char) : Option ℕ :=
  let t := sign (s.dropWhile isSpace)
  let ds := (dropHexMark t.2).takeWhile (isDigitOf 16)
  if ds = [] then none else some (saturate t.1 (value 16 ds))

/-! ## Texts of numbers -/

variable {base : ℕ}

theorem digitVal_digitChar : ∀ {d : ℕ}, d < 16 → digitVal (Nat.digitChar d) = some d := by
  decide

theorem isDigitOf_digitChar (hbase : base ≤ 16) {d : ℕ} (hd : d < base) :
    isDigitOf base (Nat.digitChar d) = true := by
  simp [isDigitOf, digitVal_digitChar (hd.trans_le hbase), hd]

theorem value_map_digitChar {l : List ℕ} (h : ∀ d ∈ l, d < 16) :
    value base (l.reverse.map Nat.digitChar) = Nat.ofDigits base l := by
  rw [value, List.foldl_map, List.foldl_reverse]
  induction l with
  | nil => rfl
  | cons d l ih =>
      obtain ⟨hd, hl⟩ := List.forall_mem_cons.mp h
      rw [List.foldr_cons, ih hl, digitVal_digitChar hd, Option.getD_some, Nat.ofDigits_cons,
        add_comm]

theorem text_ne_nil (base n : ℕ) : text base n ≠ [] := by
  rw [text]
  split_ifs with h
  · simp
  · simpa [Nat.digits_eq_nil_iff_eq_zero] using h

section Base

variable (hbase : 2 ≤ base) (hle : base ≤ 16)

include hbase hle

/-- The first `k` digits are the quotient by a power of the base. -/
theorem value_take_text (n k : ℕ) :
    value base ((text base n).take k) = n / base ^ ((text base n).length - k) := by
  by_cases h : n = 0
  · subst h
    cases k <;> simp [text, value, digitVal]
  · have htext : text base n = (Nat.digits base n).reverse.map Nat.digitChar := if_neg h
    have hdigits : ∀ d ∈ Nat.digits base n, d < 16 :=
      fun d hd ↦ (Nat.digits_lt_base hbase hd).trans_le hle
    rw [htext, ← List.map_take, List.take_reverse,
      value_map_digitChar fun d hd ↦ hdigits d (List.mem_of_mem_drop hd),
      Nat.self_div_pow_eq_ofDigits_drop _ _ hbase, List.length_map, List.length_reverse]

theorem value_text (n : ℕ) : value base (text base n) = n := by
  simpa using value_take_text hbase hle n (text base n).length

theorem isDigitOf_of_mem_text {n : ℕ} {c : Char} (hc : c ∈ text base n) :
    isDigitOf base c = true := by
  rw [text] at hc
  split_ifs at hc
  · rw [List.mem_singleton.mp hc]
    exact isDigitOf_digitChar hle (d := 0) (by omega)
  · obtain ⟨d, hd, rfl⟩ := List.mem_map.mp hc
    exact isDigitOf_digitChar hle (Nat.digits_lt_base hbase (List.mem_reverse.mp hd))

theorem takeWhile_text (n : ℕ) : (text base n).takeWhile (isDigitOf base) = text base n :=
  List.takeWhile_eq_self_iff.mpr fun _ hc ↦ isDigitOf_of_mem_text hbase hle hc

end Base

theorem length_text_le (hbase : 2 ≤ base) {n k : ℕ} (hk : 0 < k) (h : n < base ^ k) :
    (text base n).length ≤ k := by
  rw [text]
  split_ifs
  · exact hk
  · rw [List.length_map, List.length_reverse]
    exact (Nat.digits_length_le_iff hbase n).mpr h

/-! ## Reading them back -/

theorem saturate_of_lt {v : ℕ} (h : v < 2 ^ 64) : saturate false v = v := by
  rw [saturate, if_neg (not_le.mpr h)]
  rfl

theorem saturate_lt (neg : Bool) (v : ℕ) : saturate neg v < 2 ^ 64 := by
  rw [saturate]
  split_ifs with hv
  · omega
  · exact Nat.mod_lt _ (by decide)
  · omega

theorem strtoull_text {s t : List Char} {n : ℕ} (hsign : sign (s.dropWhile isSpace) = (false, t))
    (hbase : baseOf t = (base, text base n)) (hlo : 2 ≤ base) (hle : base ≤ 16)
    (h : n < 2 ^ 64) : strtoull s = n := by
  simp only [strtoull, hsign, hbase, takeWhile_text hlo hle, value_text hlo hle, saturate_of_lt h]

theorem strtoull_hexText {n : ℕ} (h : n < 2 ^ 64) : strtoull ('0' :: 'x' :: hexText n) = n := by
  have hbase : baseOf ('0' :: 'x' :: hexText n) = (16, text 16 n) := rfl
  exact strtoull_text rfl hbase (by decide) (by decide) h

theorem scanHex_hexText {n : ℕ} (h : n < 2 ^ 64) :
    scanHex ('0' :: 'x' :: hexText n) = some n := by
  have hsign : sign (('0' :: 'x' :: hexText n).dropWhile isSpace) =
      (false, '0' :: 'x' :: hexText n) := rfl
  have hdigits : (dropHexMark ('0' :: 'x' :: hexText n)).takeWhile (isDigitOf 16) = text 16 n :=
    takeWhile_text (by decide) (by decide) n
  simp only [scanHex, hsign, hdigits]
  rw [if_neg (text_ne_nil 16 n), value_text (by decide) (by decide), saturate_of_lt h]

theorem digitChar_ne_zero : ∀ {d : ℕ}, d < 16 → d ≠ 0 → Nat.digitChar d ≠ '0' := by
  decide

/-- A positive number's text does not begin with a zero, so that a decimal one is not taken
for an octal one. -/
theorem head_text {n : ℕ} (hlo : 2 ≤ base) (hle : base ≤ 16) (hn : n ≠ 0) :
    ∃ c s, text base n = c :: s ∧ c ≠ '0' := by
  have hne : Nat.digits base n ≠ [] := Nat.digits_ne_nil_iff_ne_zero.mpr hn
  have hlast := Nat.getLast_digit_ne_zero base hn
  have hlt := Nat.digits_lt_base hlo (List.getLast_mem hne)
  refine ⟨Nat.digitChar ((Nat.digits base n).getLast hne),
    (Nat.digits base n).dropLast.reverse.map Nat.digitChar, ?_,
    digitChar_ne_zero (hlt.trans_le hle) hlast⟩
  rw [text, if_neg hn, ← List.map_cons, ← List.reverse_concat, List.dropLast_concat_getLast]

theorem baseOf_of_ne {c : Char} (hc : c ≠ '0') (s : List Char) :
    baseOf (c :: s) = (10, c :: s) := by
  rw [baseOf]
  all_goals
    intro s' h
    exact hc (List.cons.inj h).1

theorem not_isSpace_of_isDigit {c : Char} (h : c.isDigit = true) :
    isSpace c = false ∧ c ≠ '-' ∧ c ≠ '+' := by
  refine ⟨?_, ?_, ?_⟩
  · by_contra hspace
    simp only [isSpace, Bool.not_eq_false, List.mem_cons, List.not_mem_nil, or_false,
      decide_eq_true_eq] at hspace
    rcases hspace with rfl | rfl | rfl | rfl | rfl | rfl <;> exact absurd h (by decide)
  · rintro rfl
    exact absurd h (by decide)
  · rintro rfl
    exact absurd h (by decide)

theorem sign_digit {c : Char} (hc : c.isDigit = true) (s : List Char) :
    sign ((c :: s).dropWhile isSpace) = (false, c :: s) := by
  obtain ⟨hspace, hminus, hplus⟩ := not_isSpace_of_isDigit hc
  rw [List.dropWhile_cons_of_neg (by simp [hspace])]
  simp [sign, hminus, hplus]

/-- The digits of base 10 are those of `Char.isDigit`. -/
theorem isDigitOf_ten (c : Char) : isDigitOf 10 c = c.isDigit := by
  have hdigit : c.isDigit = true ↔ '0' ≤ c ∧ c ≤ '9' := by
    simp [Char.isDigit, Char.le_def]
  rw [Bool.eq_iff_iff, hdigit, isDigitOf, digitVal]
  split_ifs with hten hlower hupper
  · have hle : c.toNat ≤ 57 := hten.2
    have hzero : '0'.toNat = 48 := rfl
    simp only [Option.any_some, decide_eq_true_eq, hten, and_self, iff_true]
    omega
  · simp [hten]
  · simp [hten]
  · simp [hten]

theorem strtoull_decimal {n : ℕ} (hn : n ≠ 0) (h : n < 2 ^ 64) : strtoull (text 10 n) = n := by
  obtain ⟨c, s, htext, hc⟩ : ∃ c s, text 10 n = c :: s ∧ c ≠ '0' :=
    head_text (by decide) (by decide) hn
  have hdigit : c.isDigit = true := by
    rw [← isDigitOf_ten]
    exact isDigitOf_of_mem_text (by decide) (by decide) (htext ▸ List.mem_cons_self)
  have hbase : baseOf (c :: s) = (10, text 10 n) := by rw [baseOf_of_ne hc, htext]
  refine strtoull_text ?_ hbase (by decide) (by decide) h
  rw [htext]
  exact sign_digit hdigit s

end Numeral
