import AxiomApps.Run.NodeSet

/-!
# Lists of nodes

The argument of `-n` may be a list of numbers and ranges. A range is built by shifting a
64-bit 1, and C says nothing about a shift by 64 or more.
-/

namespace AxiomApps.Run.NodeSet

open Decimal
open Numeral (scanHex)
open Output (maxNumNodes)

/-! ## Items -/

/-- An item of a list: a number or a range. -/
inductive Item
  | one (a : ℤ)
  | range (a b : ℤ)
  deriving DecidableEq, Repr

namespace Item

def text : Item → List Char
  | one a => intText a
  | range a b => intText a ++ '-' :: intText b

/-- The nodes the item names are nodes, in order. -/
def InBounds : Item → Prop
  | one a => 1 ≤ a ∧ a ≤ maxNumNodes
  | range a b => 1 ≤ a ∧ a ≤ b ∧ b ≤ maxNumNodes

/-- The numbers are representable as `int`. -/
def IsInt : Item → Prop
  | one a => -2 ^ 31 ≤ a ∧ a < 2 ^ 31
  | range a b => (-2 ^ 31 ≤ a ∧ a < 2 ^ 31) ∧ -2 ^ 31 ≤ b ∧ b < 2 ^ 31

def Contains (i : ℕ) : Item → Prop
  | one a => (i : ℤ) = a
  | range a b => a ≤ i ∧ (i : ℤ) ≤ b

instance (it : Item) : Decidable it.InBounds :=
  match it with
  | one _ => inferInstanceAs (Decidable (_ ∧ _))
  | range _ _ => inferInstanceAs (Decidable (_ ∧ _))

instance (it : Item) : Decidable it.IsInt :=
  match it with
  | one _ => inferInstanceAs (Decidable (_ ∧ _))
  | range _ _ => inferInstanceAs (Decidable (_ ∧ _))

end Item

/-- The items with commas between them. -/
def listText (items : List Item) : List Char := [','].intercalate (items.map Item.text)

variable {r i : ℕ} {it : Item} {items : List Item}

theorem toInt32_of_int {z : ℤ} (hlo : -2 ^ 31 ≤ z) (hhi : z < 2 ^ 31) : toInt32 (clamp z) = z := by
  have hclamp : clamp z = z := by
    rw [clamp]
    omega
  rw [hclamp, toInt32, BitVec.toInt_ofInt]
  exact Int.bmod_eq_of_le (by omega) (by omega)

theorem scanInt_intText {z : ℤ} (hlo : -2 ^ 31 ≤ z) (hhi : z < 2 ^ 31) {s : List Char}
    (hs : Stops s) : scanInt (intText z ++ s) = some (z, s) := by
  rw [scanInt, strtol_intText z hs, Option.map_some, toInt32_of_int hlo hhi]

theorem mem_intText {z : ℤ} {c : Char} (hc : c ∈ intText z) :
    c.isDigit = true ∨ c = '-' ∧ z < 0 := by
  rw [intText] at hc
  split_ifs at hc with hneg
  · rcases List.mem_cons.mp hc with rfl | hc
    · exact .inr ⟨rfl, hneg⟩
    · exact .inl (isDigit_of_mem_natText hc)
  · exact .inl (isDigit_of_mem_natText hc)

theorem mem_text {c : Char} (hc : c ∈ it.text) : c.isDigit = true ∨ c = '-' := by
  cases it with
  | one a => exact (mem_intText hc).imp_right And.left
  | range a b =>
      rcases List.mem_append.mp hc with hc | hc
      · exact (mem_intText hc).imp_right And.left
      · rcases List.mem_cons.mp hc with hc | hc
        · exact .inr hc
        · exact (mem_intText hc).imp_right And.left

theorem text_ne_nil (it : Item) : it.text ≠ [] := by
  cases it with
  | one a =>
      simp only [Item.text, intText]
      split_ifs
      · simp
      · exact natText_ne_nil _
  | range a b => simp [Item.text]

/-- What the program reads of a range. -/
theorem scanRange_text {a b : ℤ} (h : (Item.range a b).IsInt) :
    scanRange (Item.range a b).text = some (a, b) := by
  obtain ⟨⟨halo, hahi⟩, hblo, hbhi⟩ := h
  have hfirst : scanInt (intText a ++ '-' :: intText b) = some (a, '-' :: intText b) :=
    scanInt_intText halo hahi (stops_cons (by decide))
  have hsecond : scanInt (intText b) = some (b, []) := by
    simpa using scanInt_intText hblo hbhi stops_nil
  rw [Item.text, scanRange, hfirst]
  simp only [hsecond, Option.map_some]

/-- A number, unless its sign makes it look like a range. -/
theorem scan_one {a : ℤ} (h : (Item.one a).IsInt) :
    scanInt (Item.one a).text = some (a, []) ∧ scanRange (Item.one a).text = none ∧
      ('-' ∈ (Item.one a).text ↔ a < 0) := by
  have hscan : scanInt (intText a) = some (a, []) := by
    simpa using scanInt_intText h.1 h.2 stops_nil
  refine ⟨hscan, ?_, fun hminus ↦ ?_, fun hneg ↦ ?_⟩
  · rw [Item.text, scanRange, hscan]
  · rcases mem_intText hminus with hdigit | ⟨-, hneg⟩
    · exact absurd hdigit (by decide)
    · exact hneg
  · rw [Item.text, intText, if_pos hneg]
    exact List.mem_cons_self

/-! ## Masks -/

/-- The bits from `a` on, `k` of them. -/
theorem testBit_interval (a k i : ℕ) :
    ((2 ^ k - 1) * 2 ^ a % 2 ^ 64).testBit i = true ↔ i < 64 ∧ a ≤ i ∧ i < a + k := by
  rw [Nat.testBit_mod_two_pow, Nat.testBit_mul_two_pow, Nat.testBit_two_pow_sub_one]
  simp only [Bool.and_eq_true, decide_eq_true_eq]
  omega

theorem testBit_allNodes (i : ℕ) : allNodes.testBit i = true ↔ 1 ≤ i ∧ i ≤ maxNumNodes := by
  have hmask : allNodes = (2 ^ 63 - 1) * 2 ^ 1 % 2 ^ 64 := by decide
  rw [hmask, testBit_interval, maxNumNodes]
  omega

theorem isInt_of_inBounds (h : it.InBounds) : it.IsInt := by
  cases it with
  | one a =>
      simp only [Item.InBounds, maxNumNodes, Item.IsInt] at h ⊢
      omega
  | range a b =>
      simp only [Item.InBounds, maxNumNodes, Item.IsInt] at h ⊢
      omega

theorem decodeItem_of_not_inBounds (hint : it.IsInt) (h : ¬ it.InBounds) (r : ℕ) :
    decodeItem r it.text = none := by
  cases it with
  | one a =>
      obtain ⟨hscan, hrange, hminus⟩ := scan_one hint
      simp only [Item.InBounds] at h
      by_cases hsign : '-' ∈ (Item.one a).text
      · rw [decodeItem_range hsign, hrange, Option.bind_none]
      · rw [decodeItem_number hsign, hscan, Option.bind_some, if_pos (by omega)]
  | range a b =>
      simp only [Item.InBounds] at h
      rw [decodeItem_range (by simp [Item.text]), scanRange_text hint, Option.bind_some,
        if_pos (by omega)]

/-- An item adds its nodes to those of the items before it. -/
theorem decodeItem_of_inBounds (h : it.InBounds)
    (hr : ∀ i, r.testBit i = true → 1 ≤ i ∧ i ≤ maxNumNodes) :
    ∃ r', decodeItem r it.text = some r' ∧
      ∀ i, r'.testBit i = true ↔ r.testBit i = true ∨ it.Contains i := by
  have hint := isInt_of_inBounds h
  cases it with
  | one a =>
      obtain ⟨hscan, -, hminus⟩ := scan_one hint
      simp only [Item.InBounds] at h
      refine ⟨r ||| 2 ^ a.toNat, ?_, fun i ↦ ?_⟩
      · rw [decodeItem_number (by rw [hminus]; omega), hscan, Option.bind_some,
          if_neg (by omega)]
      · rw [Nat.testBit_or, Nat.testBit_two_pow, Bool.or_eq_true, decide_eq_true_eq]
        refine or_congr_right ?_
        simp only [Item.Contains]
        omega
  | range a b =>
      have hmax := maxNumNodes_eq
      simp only [Item.InBounds] at h
      have hdecode : decodeItem r (Item.range a b).text =
          if b - a + 1 = maxNumNodes then some allNodes
          else some (r ||| (2 ^ (b - a + 1).toNat - 1) * 2 ^ a.toNat % 2 ^ 64) := by
        rw [decodeItem_range (by simp [Item.text]), scanRange_text hint, Option.bind_some,
          if_neg (by omega)]
      by_cases hall : b - a + 1 = maxNumNodes
      · -- all nodes: what the items before it named is among them
        refine ⟨allNodes, by rw [hdecode, if_pos hall], fun i ↦ ?_⟩
        have hri := hr i
        rw [testBit_allNodes]
        simp only [Item.Contains]
        constructor
        · intro hi
          exact .inr (by omega)
        · rintro (hi | hi)
          · exact hri hi
          · omega
      · refine ⟨_, by rw [hdecode, if_neg hall], fun i ↦ ?_⟩
        rw [Nat.testBit_or, Bool.or_eq_true, testBit_interval]
        refine or_congr_right ?_
        simp only [Item.Contains]
        omega

/-! ## Lists -/

theorem not_mem_listText {c : Char} (hdigit : c.isDigit = false) (hminus : c ≠ '-')
    (hcomma : c ≠ ',') : c ∉ listText items := by
  rw [listText]
  induction items with
  | nil => simp
  | cons it items ih =>
      have hc : c ∉ it.text := fun hc ↦ by
        rcases mem_text hc with h | h
        · simp [h] at hdigit
        · exact hminus h
      cases items with
      | nil => simpa using hc
      | cons next items =>
          rw [List.map_cons] at ih ⊢
          simpa [List.intercalate, List.intersperse, hc, hcomma] using ih

theorem strtok_listText (hne : items ≠ []) : strtok (listText items) = items.map Item.text := by
  have hcomma : ∀ s ∈ items.map Item.text, ',' ∉ s := by
    intro s hs hmem
    obtain ⟨it, -, rfl⟩ := List.mem_map.mp hs
    rcases mem_text hmem with h | h
    · exact absurd h (by decide)
    · exact absurd h (by decide)
  rw [strtok, listText, List.splitOn_intercalate ',' hcomma (by simpa using hne),
    List.filter_eq_self]
  intro s hs
  obtain ⟨it, -, rfl⟩ := List.mem_map.mp hs
  simpa using text_ne_nil it

theorem decodeNodeArg_listText (hne : items ≠ []) :
    decodeNodeArg (listText items) = (items.map Item.text).foldlM decodeItem 0 := by
  have hx : ¬ ['0', 'x'].isPrefixOf (listText items) = true := by
    intro h
    obtain ⟨rest, hrest⟩ := List.isPrefixOf_iff_prefix.mp h
    refine @not_mem_listText items 'x' (by decide) (by decide) (by decide) ?_
    simp [← hrest]
  rw [decodeNodeArg_list hx, strtok_listText hne]

theorem foldlM_decodeItem (h : ∀ it ∈ items, it.InBounds)
    (hr : ∀ i, r.testBit i = true → 1 ≤ i ∧ i ≤ maxNumNodes) :
    ∃ r', (items.map Item.text).foldlM decodeItem r = some r' ∧
      ∀ i, r'.testBit i = true ↔ r.testBit i = true ∨ ∃ it ∈ items, it.Contains i := by
  induction items generalizing r with
  | nil => exact ⟨r, rfl, by simp⟩
  | cons it items ih =>
      obtain ⟨hit, hitems⟩ := List.forall_mem_cons.mp h
      obtain ⟨r₁, hstep, hbits⟩ := decodeItem_of_inBounds hit hr
      have hr₁ : ∀ i, r₁.testBit i = true → 1 ≤ i ∧ i ≤ maxNumNodes := by
        intro i hi
        rcases (hbits i).mp hi with hi | hi
        · exact hr i hi
        · cases it with
          | one a =>
              simp only [Item.Contains, Item.InBounds] at hi hit
              omega
          | range a b =>
              simp only [Item.Contains, Item.InBounds] at hi hit
              omega
      obtain ⟨r₂, hrest, hbits₂⟩ := ih hitems hr₁
      refine ⟨r₂, ?_, fun i ↦ ?_⟩
      · rw [List.map_cons, List.foldlM_cons, hstep]
        exact hrest
      · rw [hbits₂, hbits, List.exists_mem_cons_iff, or_assoc]

theorem foldlM_decodeItem_eq_none (hint : ∀ it ∈ items, it.IsInt)
    (h : ∃ it ∈ items, ¬ it.InBounds) (r : ℕ) :
    (items.map Item.text).foldlM decodeItem r = none := by
  induction items generalizing r with
  | nil => simp at h
  | cons it items ih =>
      obtain ⟨hit, hitems⟩ := List.forall_mem_cons.mp hint
      rw [List.map_cons, List.foldlM_cons]
      by_cases hin : it.InBounds
      · have hrest : ∃ it ∈ items, ¬ it.InBounds := by simpa [hin] using h
        cases decodeItem r it.text with
        | none => rfl
        | some r' => exact ih hitems hrest r'
      · rw [decodeItem_of_not_inBounds hit hin]
        rfl

/-- A list of nodes is decoded to the union of its items, without a shift by 64 or more, and
a list with an item out of bounds is rejected. -/
theorem node_list_union (hne : items ≠ []) :
    ((∀ it ∈ items, it.InBounds) → ∃ r, decodeNodeArgShifting (listText items) = .ok r ∧
      r < 2 ^ 64 ∧ ∀ i, r.testBit i = true ↔ ∃ it ∈ items, it.Contains i) ∧
    ((∀ it ∈ items, it.IsInt) → (∃ it ∈ items, ¬ it.InBounds) →
      decodeNodeArgShifting (listText items) = .error .usage) := by
  rw [decodeNodeArgShifting_eq, decodeNodeArg_listText hne]
  constructor
  · intro h
    obtain ⟨r, hr, hbits⟩ := foldlM_decodeItem (r := 0) h (by simp)
    simp only [Nat.zero_testBit, Bool.false_eq_true, false_or] at hbits
    refine ⟨r, by rw [hr]; rfl, Nat.lt_pow_two_of_testBit r fun i hi ↦ ?_, hbits⟩
    rw [← Bool.not_eq_true, hbits]
    rintro ⟨it, hit, hcontains⟩
    have hin := h it hit
    cases it with
    | one a =>
        simp only [Item.Contains, Item.InBounds, maxNumNodes] at hcontains hin
        omega
    | range a b =>
        simp only [Item.Contains, Item.InBounds, maxNumNodes] at hcontains hin
        omega
  · intro hint h
    rw [foldlM_decodeItem_eq_none hint h]
    rfl

/-- `1-2,1-63,7` -/
theorem node_list_union_all :
    ∃ r, decodeNodeArgShifting (listText [.range 1 2, .range 1 63, .one 7]) = .ok r ∧
      r.testBit 0 = false ∧ r.testBit 63 = true := by
  obtain ⟨r, hr, -, hbits⟩ :=
    (@node_list_union [.range 1 2, .range 1 63, .one 7] (by simp)).1 (by decide)
  refine ⟨r, hr, ?_, (hbits 63).mpr ⟨.range 1 63, by simp, by simp [Item.Contains]⟩⟩
  rw [← Bool.not_eq_true, hbits]
  simp [Item.Contains]

end AxiomApps.Run.NodeSet
