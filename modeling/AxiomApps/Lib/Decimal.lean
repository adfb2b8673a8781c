import AxiomApps.Lib.Numeral

/-!
# Decimal numbers as text

Numbers as `printf` writes them and as `strtol` reads them, with 64-bit longs. What `strtol`
makes of a number's text depends on the number only up to saturation.
-/

namespace Decimal

open Numeral (isSpace sign value text isDigitOf_ten isDigitOf_of_mem_text sign_digit)

/-- `%lu` -/
def natText (n : ℕ) : List Char := text 10 n

/-- `%d` -/
def intText (z : ℤ) : List Char :=
  if z < 0 then '-' :: natText z.natAbs else natText z.natAbs

/-- What `snprintf` stores of a text in a buffer of `size` bytes. -/
def snprintf (size : ℕ) (text : List Char) : List Char := text.take (size - 1)

/-- The nearest long. -/
def clamp (z : ℤ) : ℤ := max (-2 ^ 63) (min z (2 ^ 63 - 1))

/-- `strtol` in base 10: the number and what follows it, none if there is no number. -/
def strtol (s : List Char) : Option (ℤ × List Char) :=
  let t := sign (s.dropWhile isSpace)
  let ds := t.2.takeWhile Char.isDigit
  if ds = [] then none
  else some (clamp (if t.1 then -value 10 ds else value 10 ds), t.2.dropWhile Char.isDigit)

/-! ## Digits -/

theorem natText_ne_nil (n : ℕ) : natText n ≠ [] := Numeral.text_ne_nil 10 n

theorem isDigit_of_mem_natText {n : ℕ} {c : Char} (hc : c ∈ natText n) : c.isDigit = true := by
  rw [← isDigitOf_ten]
  exact isDigitOf_of_mem_text (by decide) (by decide) hc

theorem value_natText (n : ℕ) : value 10 (natText n) = n :=
  Numeral.value_text (by decide) (by decide) n

theorem length_natText_le {n k : ℕ} (hk : 0 < k) (h : n < 10 ^ k) : (natText n).length ≤ k :=
  Numeral.length_text_le (by decide) hk h

theorem length_intText_le {z : ℤ} {k : ℕ} (hk : 0 < k) (h : z.natAbs < 10 ^ k) :
    (intText z).length ≤ k + 1 := by
  have hlen := length_natText_le hk h
  rw [intText]
  split_ifs
  · rw [List.length_cons]
    omega
  · omega

theorem isDigit_of_mem_intText {z : ℤ} {c : Char} (hc : c ∈ intText z) :
    c = '-' ∨ c.isDigit = true := by
  rw [intText] at hc
  split_ifs at hc
  · rcases List.mem_cons.mp hc with rfl | hc
    · exact .inl rfl
    · exact .inr (isDigit_of_mem_natText hc)
  · exact .inr (isDigit_of_mem_natText hc)

/-- An int is a long. -/
theorem clamp_toInt (z : BitVec 32) : clamp z.toInt = z.toInt := by
  have hle := BitVec.le_toInt z
  have hlt := BitVec.toInt_lt (x := z)
  simp only [clamp]
  omega

theorem intText_natCast (n : ℕ) : intText n = natText n := by
  rw [intText, if_neg (by omega), Int.natAbs_natCast]

theorem snprintf_of_length {size : ℕ} {text : List Char} (h : text.length < size) :
    snprintf size text = text :=
  List.take_of_length_le (Nat.le_sub_one_of_lt h)

/-! ## Reading -/

def Stops (s : List Char) : Prop := ∀ c, s.head? = some c → c.isDigit = false

theorem stops_nil : Stops [] := nofun

theorem stops_cons {c : Char} {s : List Char} (h : c.isDigit = false) : Stops (c :: s) := by
  rintro _ ⟨⟩
  exact h

theorem takeWhile_digits {ds rest : List Char} (hds : ∀ c ∈ ds, c.isDigit = true)
    (hrest : Stops rest) :
    (ds ++ rest).takeWhile Char.isDigit = ds ∧ (ds ++ rest).dropWhile Char.isDigit = rest := by
  rw [List.takeWhile_append_of_pos hds, List.dropWhile_append_of_pos hds]
  cases rest with
  | nil => simp
  | cons c rest => simp [hrest c rfl]

/-- Where a number's text ends is seen from what follows. -/
theorem natText_append_inj {m n : ℕ} {s t : List Char} (hs : Stops s) (ht : Stops t)
    (h : natText m ++ s = natText n ++ t) : m = n ∧ s = t := by
  obtain ⟨htake, hdrop⟩ := takeWhile_digits (fun _ ↦ isDigit_of_mem_natText (n := m)) hs
  obtain ⟨htake', hdrop'⟩ := takeWhile_digits (fun _ ↦ isDigit_of_mem_natText (n := n)) ht
  have htext : natText m = natText n := by rw [← htake, h, htake']
  refine ⟨?_, by rw [← hdrop, h, hdrop']⟩
  rw [← value_natText m, htext, value_natText]

theorem strtol_of_sign {s ds rest : List Char} {neg : Bool}
    (hsign : sign (s.dropWhile isSpace) = (neg, ds ++ rest)) (hne : ds ≠ [])
    (hds : ∀ c ∈ ds, c.isDigit = true) (hrest : Stops rest) :
    strtol s = some (clamp (if neg then -value 10 ds else value 10 ds), rest) := by
  obtain ⟨htake, hdrop⟩ := takeWhile_digits hds hrest
  simp only [strtol, hsign, htake, hdrop, if_neg hne]

theorem strtol_digits {ds rest : List Char} (hne : ds ≠ []) (hds : ∀ c ∈ ds, c.isDigit = true)
    (hrest : Stops rest) : strtol (ds ++ rest) = some (clamp (value 10 ds), rest) := by
  have hsign : sign ((ds ++ rest).dropWhile isSpace) = (false, ds ++ rest) := by
    obtain ⟨c, l, rfl⟩ := List.exists_cons_of_ne_nil hne
    exact sign_digit (hds c (List.mem_cons_self ..)) (l ++ rest)
  exact strtol_of_sign hsign hne hds hrest

theorem strtol_natText (n : ℕ) {rest : List Char} (hrest : Stops rest) :
    strtol (natText n ++ rest) = some (clamp n, rest) := by
  rw [strtol_digits (natText_ne_nil n) (fun _ ↦ isDigit_of_mem_natText) hrest, value_natText]

theorem strtol_intText (z : ℤ) {rest : List Char} (hrest : Stops rest) :
    strtol (intText z ++ rest) = some (clamp z, rest) := by
  rw [intText]
  split_ifs with hneg
  · have hsign : sign (('-' :: natText z.natAbs ++ rest).dropWhile isSpace) =
        (true, natText z.natAbs ++ rest) := rfl
    rw [strtol_of_sign hsign (natText_ne_nil _) (fun _ ↦ isDigit_of_mem_natText) hrest,
      value_natText, if_pos rfl]
    congr 3
    omega
  · rw [strtol_natText _ hrest]
    congr 3
    omega

/-! ## What is a number -/

/-- The texts that `strtol` takes for a number: digits, with a sign and blanks in front. -/
inductive Number : List Char → ℤ → Prop
  | digits {ds : List Char} (hne : ds ≠ []) (hds : ∀ c ∈ ds, c.isDigit = true) :
      Number ds (value 10 ds)
  | minus {ds : List Char} (hne : ds ≠ []) (hds : ∀ c ∈ ds, c.isDigit = true) :
      Number ('-' :: ds) (-value 10 ds)
  | plus {ds : List Char} (hne : ds ≠ []) (hds : ∀ c ∈ ds, c.isDigit = true) :
      Number ('+' :: ds) (value 10 ds)
  | blank {c : Char} {s : List Char} {z : ℤ} (hc : isSpace c = true) (h : Number s z) :
      Number (c :: s) z

/-- No number stands at the beginning of the text. -/
def NoNumber (s : List Char) : Prop := ∀ n rest z, s = n ++ rest → ¬ Number n z

theorem strtol_blank {c : Char} (hc : isSpace c = true) (s : List Char) :
    strtol (c :: s) = strtol s := by
  simp only [strtol, List.dropWhile_cons_of_pos hc]

theorem strtol_number {n rest : List Char} {z : ℤ} (h : Number n z) (hrest : Stops rest) :
    strtol (n ++ rest) = some (clamp z, rest) := by
  induction h with
  | digits hne hds => exact strtol_digits hne hds hrest
  | minus hne hds => rw [List.cons_append, strtol_of_sign rfl hne hds hrest, if_pos rfl]
  | plus hne hds =>
      rw [List.cons_append, strtol_of_sign rfl hne hds hrest]
      rfl
  | blank hc _ ih => rw [List.cons_append, strtol_blank hc, ih]

theorem stops_dropWhile (s : List Char) : Stops (s.dropWhile Char.isDigit) := by
  intro c hc
  have hhead := List.head?_dropWhile_not Char.isDigit s
  rw [hc] at hhead
  exact hhead

theorem sign_cases (s : List Char) :
    (∃ t, s = '-' :: t ∧ sign s = (true, t)) ∨ (∃ t, s = '+' :: t ∧ sign s = (false, t)) ∨
      sign s = (false, s) := by
  unfold sign
  split
  · exact .inl ⟨_, rfl, rfl⟩
  · exact .inr (.inl ⟨_, rfl, rfl⟩)
  · exact .inr (.inr rfl)

/-- What is read as a number is one. -/
theorem number_of_strtol {s rest : List Char} {v : ℤ} (h : strtol s = some (v, rest)) :
    ∃ n z, s = n ++ rest ∧ Number n z ∧ Stops rest ∧ v = clamp z := by
  induction s with
  | nil => simp [strtol, sign] at h
  | cons c s ih =>
      by_cases hc : isSpace c = true
      · rw [strtol_blank hc] at h
        obtain ⟨n, z, rfl, hn, hrest⟩ := ih h
        exact ⟨c :: n, z, rfl, .blank hc hn, hrest⟩
      · simp only [strtol, List.dropWhile_cons_of_neg hc, Option.ite_none_left_eq_some,
          Option.some.injEq, Prod.mk.injEq] at h
        obtain ⟨hne, rfl, rfl⟩ := h
        have hdigits (t : List Char) : ∀ d ∈ t.takeWhile Char.isDigit, d.isDigit = true :=
          fun _ ↦ List.mem_takeWhile_imp
        have hsplit (t : List Char) : t.takeWhile Char.isDigit ++ t.dropWhile Char.isDigit = t :=
          List.takeWhile_append_dropWhile
        obtain ⟨t, hs, hsign⟩ | ⟨t, hs, hsign⟩ | hsign := sign_cases (c :: s) <;>
          rw [hsign] at hne ⊢
        · exact ⟨_, _, by rw [hs, List.cons_append, hsplit], .minus hne (hdigits t),
            stops_dropWhile t, rfl⟩
        · exact ⟨_, _, by rw [hs, List.cons_append, hsplit], .plus hne (hdigits t),
            stops_dropWhile t, rfl⟩
        · exact ⟨_, _, (hsplit _).symm, .digits hne (hdigits _), stops_dropWhile _, rfl⟩

/-- More digits make another number. -/
theorem Number.append {n ds : List Char} {z : ℤ} (h : Number n z)
    (hds : ∀ c ∈ ds, c.isDigit = true) : ∃ z', Number (n ++ ds) z' := by
  induction h with
  | digits hne hn =>
      exact ⟨_, .digits (List.append_ne_nil_of_left_ne_nil hne _)
        (List.forall_mem_append.mpr ⟨hn, hds⟩)⟩
  | minus hne hn =>
      exact ⟨_, .minus (List.append_ne_nil_of_left_ne_nil hne _)
        (List.forall_mem_append.mpr ⟨hn, hds⟩)⟩
  | plus hne hn =>
      exact ⟨_, .plus (List.append_ne_nil_of_left_ne_nil hne _)
        (List.forall_mem_append.mpr ⟨hn, hds⟩)⟩
  | blank hc _ ih =>
      obtain ⟨z', hz'⟩ := ih
      exact ⟨z', .blank hc hz'⟩

theorem strtol_eq_none_iff (s : List Char) : strtol s = none ↔ NoNumber s := by
  constructor
  · rintro h n rest z rfl hn
    -- the number that is read goes on as long as there are digits
    obtain ⟨z', hz'⟩ : ∃ z', Number (n ++ rest.takeWhile Char.isDigit) z' :=
      hn.append fun _ ↦ List.mem_takeWhile_imp
    have hread := strtol_number hz' (stops_dropWhile rest)
    rw [List.append_assoc, List.takeWhile_append_dropWhile, h] at hread
    cases hread
  · intro h
    cases hread : strtol s with
    | none => rfl
    | some r =>
        obtain ⟨n, z, hs, hn, -⟩ := number_of_strtol hread
        exact absurd hn (h n r.2 z hs)

end Decimal
