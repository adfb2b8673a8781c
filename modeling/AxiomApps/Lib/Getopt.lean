import Mathlib.Data.List.TakeWhile
import Mathlib.Tactic

/-!
# `getopt_long`

The words of a command line are scanned up to the first one that is no option, as for an option
string that begins with a plus. Options of one character may share a word; a long one may be
abbreviated. A program handles the options one at a time and may take further words itself.
-/

namespace Getopt

/-- `no_argument`, `required_argument` and `optional_argument` -/
inductive HasArg
  | no
  | required
  | optional
  deriving DecidableEq, Repr

structure LongOption (α : Type*) where
  name : List Char
  hasArg : HasArg
  val : α

/-- The option string without the plus, and the long options. -/
structure Spec (α : Type*) where
  optstring : List Char
  ofChar : Char → α
  long : List (LongOption α)

/-- What a call returns: an option with its argument, or the `?` for what is no option or lacks
its argument. -/
inductive Item (α : Type*)
  | opt (val : α) (arg : Option (List Char))
  | unknown
  deriving DecidableEq, Repr

/-- What is left of the current word, and the words after it. -/
structure Scan where
  nextchar : List Char
  words : List (List Char)
  deriving DecidableEq, Repr

inductive Result (α : Type*)
  | ended (rest : List (List Char))
  | found (item : Item α) (s : Scan)

/-- A word that ends the options: it has no minus in front, or nothing after it. -/
def NonOption (w : List Char) : Prop := w.head? ≠ some '-' ∨ w.length ≤ 1

instance : DecidablePred NonOption := fun _ ↦ inferInstanceAs (Decidable (_ ∨ _))

variable {α : Type*} [DecidableEq α] (spec : Spec α)

def Scan.size (s : Scan) : ℕ := s.nextchar.length + (s.words.map (·.length + 1)).sum

/-! ## One call -/

def lookup (optstring : List Char) (c : Char) : Option HasArg :=
  if c = ':' ∨ c = ';' then none
  else
    match optstring.dropWhile (· ≠ c) with
    | [] => none
    | _ :: ':' :: ':' :: _ => some .optional
    | _ :: ':' :: _ => some .required
    | _ => some .no

theorem mem_of_lookup {l : List Char} {c : Char} {h : HasArg} (hl : lookup l c = some h) :
    c ∈ l := by
  by_contra hc
  have hdrop : l.dropWhile (· ≠ c) = [] := by
    rw [List.dropWhile_eq_nil_iff]
    intro x hx
    simpa using fun hxc : x = c ↦ hc (hxc ▸ hx)
  rw [lookup, hdrop] at hl
  split_ifs at hl

/-- The option `c`, followed by `rest` in its word. -/
def shortOption (c : Char) (rest : List Char) (words : List (List Char)) : Item α × Scan :=
  match lookup spec.optstring c with
  | none => (.unknown, ⟨rest, words⟩)
  | some .no => (.opt (spec.ofChar c) none, ⟨rest, words⟩)
  | some .optional => (.opt (spec.ofChar c) (if rest = [] then none else some rest), ⟨[], words⟩)
  | some .required =>
      if rest ≠ [] then (.opt (spec.ofChar c) (some rest), ⟨[], words⟩)
      else
        match words with
        | [] => (.unknown, ⟨[], []⟩)
        | w :: words => (.opt (spec.ofChar c) (some w), ⟨[], words⟩)

/-- The option of that name, or else the one that the name abbreviates. -/
def find (long : List (LongOption α)) (name : List Char) : Option (LongOption α) :=
  match long.find? (·.name = name) with
  | some o => some o
  | none =>
      match long.filter (name.isPrefixOf ·.name) with
      | [] => none
      | o :: others =>
          if others.all (fun p ↦ p.hasArg = o.hasArg ∧ p.val = o.val) then some o else none

def longOption (text : List Char) (words : List (List Char)) : Item α × List (List Char) :=
  match find spec.long (text.takeWhile (· ≠ '=')) with
  | none => (.unknown, words)
  | some o =>
      match text.dropWhile (· ≠ '='), o.hasArg, words with
      | _ :: _, .no, words => (.unknown, words)
      | _ :: arg, _, words => (.opt o.val (some arg), words)
      | [], .required, [] => (.unknown, [])
      | [], .required, w :: words => (.opt o.val (some w), words)
      | [], _, words => (.opt o.val none, words)

def call (s : Scan) : Result α :=
  match s.nextchar with
  | c :: rest =>
      let r := shortOption spec c rest s.words
      .found r.1 r.2
  | [] =>
      match s.words with
      | [] => .ended []
      | ['-', '-'] :: words => .ended words
      | ('-' :: '-' :: text) :: words =>
          let r := longOption spec text words
          .found r.1 ⟨[], r.2⟩
      | ('-' :: c :: rest) :: words =>
          let r := shortOption spec c rest words
          .found r.1 r.2
      | words => .ended words

theorem nonOption_cons {c : Char} (h : c ≠ '-') (w : List Char) : NonOption (c :: w) :=
  .inl (by simpa using h)

theorem not_nonOption (c : Char) (w : List Char) : ¬ NonOption ('-' :: c :: w) := by
  simp [NonOption]

theorem exists_of_not_nonOption {w : List Char} (h : ¬ NonOption w) :
    ∃ c l, w = '-' :: c :: l := by
  match w with
  | [] => exact absurd (.inr (by simp)) h
  | [_] => exact absurd (.inr (by simp)) h
  | a :: c :: l =>
      by_cases ha : a = '-'
      · exact ⟨c, l, by rw [ha]⟩
      · exact absurd (nonOption_cons ha _) h

omit [DecidableEq α] in
theorem words_shortOption (c : Char) (rest : List Char) (words : List (List Char)) :
    (shortOption spec c rest words).2.words <:+ words ∧
      (shortOption spec c rest words).2.nextchar.length ≤ rest.length := by
  unfold shortOption
  split
  · exact ⟨List.suffix_rfl, le_rfl⟩
  · exact ⟨List.suffix_rfl, le_rfl⟩
  · exact ⟨List.suffix_rfl, Nat.zero_le _⟩
  · split_ifs
    · exact ⟨List.suffix_rfl, Nat.zero_le _⟩
    · cases words with
      | nil => exact ⟨List.suffix_rfl, Nat.zero_le _⟩
      | cons w words => exact ⟨List.suffix_cons w words, Nat.zero_le _⟩

theorem words_longOption (text : List Char) (words : List (List Char)) :
    (longOption spec text words).2 <:+ words := by
  rw [longOption]
  split
  · exact List.suffix_rfl
  · split
    all_goals first | exact List.suffix_rfl | exact List.suffix_cons ..

/-- A call that ends the scan. -/
theorem ended_cases {s : Scan} {rest : List (List Char)} (h : call spec s = .ended rest) :
    s.nextchar = [] ∧ (s.words = ['-', '-'] :: rest ∨
      s.words = rest ∧ ∀ w ∈ rest.head?, NonOption w) := by
  obtain ⟨nextchar, words⟩ := s
  rw [call] at h
  split at h
  · cases h
  · next hnext =>
      refine ⟨hnext, ?_⟩
      split at h
      · next hwords =>
          cases h
          exact .inr ⟨hwords, nofun⟩
      · next hwords =>
          cases h
          exact .inl hwords
      · cases h
      · cases h
      · next hempty hend hlong hshort =>
          cases h
          refine .inr ⟨rfl, fun w hw ↦ ?_⟩
          obtain ⟨l, rfl⟩ := List.head?_eq_some_iff.mp hw
          by_contra hopt
          obtain ⟨c, w, rfl⟩ := exists_of_not_nonOption hopt
          exact hshort c w l rfl

theorem Scan.size_le_of_suffix {s s' : Scan} (hwords : s'.words <:+ s.words)
    (hnext : s'.nextchar.length ≤ s.nextchar.length) : s'.size ≤ s.size := by
  obtain ⟨t, ht⟩ := hwords
  rw [Scan.size, Scan.size, ← ht, List.map_append, List.sum_append]
  omega

/-- What a call finds, within a word or at the beginning of one. -/
theorem found_cases {s s' : Scan} {item : Item α} (h : call spec s = .found item s') :
    (∃ c rest, s.nextchar = c :: rest ∧ (item, s') = shortOption spec c rest s.words) ∨
    s.nextchar = [] ∧ ∃ c rest words, s.words = ('-' :: c :: rest) :: words ∧
      ((item, s') = shortOption spec c rest words ∨
        item = (longOption spec rest words).1 ∧ s' = ⟨[], (longOption spec rest words).2⟩) := by
  obtain ⟨nextchar, words⟩ := s
  rw [call] at h
  split at h
  · next c rest hnext =>
      cases h
      exact .inl ⟨c, rest, hnext, rfl⟩
  · next hnext =>
      refine .inr ⟨hnext, ?_⟩
      split at h
      · cases h
      · cases h
      · next hwords =>
          cases h
          exact ⟨_, _, _, hwords, .inr ⟨rfl, rfl⟩⟩
      · next hwords =>
          cases h
          exact ⟨_, _, _, hwords, .inl rfl⟩
      · cases h

/-- The option with the value `v` may take an argument as `h` says. -/
def Takes (v : α) (h : HasArg) : Prop :=
  (∃ c, v = spec.ofChar c ∧ lookup spec.optstring c = some h) ∨
    ∃ o ∈ spec.long, v = o.val ∧ h = o.hasArg

omit [DecidableEq α] in
theorem takes_shortOption {c : Char} {rest : List Char} {words : List (List Char)} {v : α}
    {arg : Option (List Char)} (h : (shortOption spec c rest words).1 = .opt v arg) :
    ∃ has, Takes spec v has ∧ (arg = none → has ≠ .required) := by
  unfold shortOption at h
  split at h
  · cases h
  · next hc =>
      cases h
      exact ⟨_, .inl ⟨c, rfl, hc⟩, nofun⟩
  · next hc =>
      cases h
      exact ⟨_, .inl ⟨c, rfl, hc⟩, nofun⟩
  · next hc =>
      have hsome : v = spec.ofChar c ∧ arg ≠ none := by
        split_ifs at h
        · cases h
          exact ⟨rfl, nofun⟩
        · cases words with
          | nil => cases h
          | cons w words =>
              cases h
              exact ⟨rfl, nofun⟩
      exact ⟨_, .inl ⟨c, hsome.1, hc⟩, fun hnone ↦ absurd hnone hsome.2⟩

theorem mem_of_find {long : List (LongOption α)} {name : List Char} {o : LongOption α}
    (h : find long name = some o) : o ∈ long := by
  unfold find at h
  split at h
  · next hfind =>
      cases h
      exact List.mem_of_find?_eq_some hfind
  · split at h
    · cases h
    · next hfilter =>
        split_ifs at h
        cases h
        have hmem : o ∈ long.filter (name.isPrefixOf ·.name) := by
          rw [hfilter]
          exact List.mem_cons_self
        exact List.mem_of_mem_filter hmem

theorem takes_longOption {text : List Char} {words : List (List Char)} {v : α}
    {arg : Option (List Char)} (h : (longOption spec text words).1 = .opt v arg) :
    ∃ has, Takes spec v has ∧ (arg = none → has ≠ .required) := by
  unfold longOption at h
  split at h
  · cases h
  · next o hfind =>
      have htakes : Takes spec o.val o.hasArg := .inr ⟨o, mem_of_find hfind, rfl, rfl⟩
      split at h
      · cases h
      · cases h
        exact ⟨_, htakes, nofun⟩
      · cases h
      · cases h
        exact ⟨_, htakes, nofun⟩
      · next ws _ _ _ _ hempty hword =>
          cases h
          refine ⟨_, htakes, fun _ hrequired ↦ ?_⟩
          cases ws with
          | nil => exact hempty hrequired rfl
          | cons w ws => exact hword w ws hrequired rfl

/-- An option that requires an argument is found with one. -/
theorem takes_of_found {s s' : Scan} {v : α} {arg : Option (List Char)}
    (h : call spec s = .found (.opt v arg) s') :
    ∃ has, Takes spec v has ∧ (arg = none → has ≠ .required) := by
  obtain ⟨c, rest, -, hfound⟩ | ⟨-, c, rest, words, -, hfound | ⟨hfound, -⟩⟩ := found_cases spec h
  · exact takes_shortOption spec (congrArg Prod.fst hfound).symm
  · exact takes_shortOption spec (congrArg Prod.fst hfound).symm
  · exact takes_longOption spec hfound.symm

/-- A call goes on with words after the one it has read. -/
theorem words_of_found {s s' : Scan} {item : Item α} (h : call spec s = .found item s') :
    s'.words <:+ s.words ∧ s'.size < s.size ∧
      (s.nextchar = [] → s'.words <:+ s.words.tail ∧ ∃ w ∈ s.words.head?, ¬ NonOption w) := by
  obtain ⟨c, rest, hnext, hfound⟩ | ⟨hnext, c, rest, words, hwords, hfound⟩ := found_cases spec h
  · obtain ⟨hsuffix, hlength⟩ := words_shortOption spec c rest s.words
    rw [← hfound] at hsuffix hlength
    have hle := Scan.size_le_of_suffix (s := ⟨rest, s.words⟩) hsuffix hlength
    refine ⟨hsuffix, ?_, fun hnil ↦ ?_⟩
    · simp only [Scan.size, hnext, List.length_cons] at hle ⊢
      omega
    · rw [hnext] at hnil
      cases hnil
  · have hsuffix : s'.words <:+ words ∧ s'.nextchar.length ≤ rest.length := by
      obtain hfound | ⟨-, rfl⟩ := hfound
      · have hshort := words_shortOption spec c rest words
        rwa [← hfound] at hshort
      · exact ⟨words_longOption spec rest words, Nat.zero_le _⟩
    have hle := Scan.size_le_of_suffix (s := ⟨rest, words⟩) hsuffix.1 hsuffix.2
    rw [hwords]
    refine ⟨hsuffix.1.trans (List.suffix_cons ..), ?_, fun _ ↦ ⟨hsuffix.1, _, rfl, ?_⟩⟩
    · simp only [Scan.size, hwords, List.map_cons, List.sum_cons, List.length_cons] at hle ⊢
      omega
    · exact not_nonOption c rest

/-! ## All calls -/

section Run

variable {σ ε : Type*} (handle : σ → Item α → List (List Char) → Except ε (σ × ℕ))

/-- The loop of a program that handles its options: `handle` is given the words not yet read
and returns how many of them it takes. -/
def run (st : σ) (s : Scan) : Except ε (σ × List (List Char)) :=
  match _h : call spec s with
  | .ended rest => .ok (st, rest)
  | .found item s' =>
      match handle st item s'.words with
      | .error e => .error e
      | .ok (st', k) => run st' ⟨s'.nextchar, s'.words.drop k⟩
termination_by s.size
decreasing_by
  have hle : Scan.size ⟨s'.nextchar, s'.words.drop k⟩ ≤ s'.size :=
    Scan.size_le_of_suffix (List.drop_suffix k s'.words) le_rfl
  exact hle.trans_lt (words_of_found spec ‹_›).2.1

variable {spec handle} {st st' : σ} {s s' : Scan} {rest : List (List Char)} {item : Item α}

theorem run_of_ended (h : call spec s = .ended rest) : run spec handle st s = .ok (st, rest) := by
  rw [run]
  split
  · next h' =>
      rw [h] at h'
      cases h'
      rfl
  · next h' =>
      rw [h] at h'
      cases h'

theorem run_of_found (h : call spec s = .found item s') : run spec handle st s =
    (handle st item s'.words).bind fun r ↦
      run spec handle r.1 ⟨s'.nextchar, s'.words.drop r.2⟩ := by
  rw [run]
  split
  · next h' =>
      rw [h] at h'
      cases h'
  · next h' =>
      rw [h] at h'
      cases h'
      cases handle st item s'.words <;> rfl

/-- The error of a loop is that of a turn. -/
theorem exists_of_run_error {e : ε} (hrun : run spec handle st s = .error e) :
    ∃ st' s₁ item s₂, call spec s₁ = .found item s₂ ∧ handle st' item s₂.words = .error e := by
  induction st, s using run.induct spec handle with
  | case1 st s rest' h =>
      rw [run_of_ended h] at hrun
      cases hrun
  | case2 st s item s' h e' he =>
      rw [run_of_found h, he] at hrun
      cases hrun
      exact ⟨st, s, item, s', h, he⟩
  | case3 st s item s' h st₁ k hok ih =>
      rw [run_of_found h, hok] at hrun
      exact ih hrun

/-- What every handler keeps holds when the options have been read, and the words left over are
the last ones. -/
theorem run_invariant {P : σ → Prop}
    (hkeep : ∀ st item words st' k, P st → handle st item words = .ok (st', k) → P st')
    (hrun : run spec handle st s = .ok (st', rest)) (hst : P st) : P st' ∧ rest <:+ s.words := by
  induction st, s using run.induct spec handle with
  | case1 st s rest' h =>
      rw [run_of_ended h] at hrun
      cases hrun
      refine ⟨hst, ?_⟩
      obtain ⟨-, hwords | ⟨hwords, -⟩⟩ := ended_cases spec h
      · rw [hwords]
        exact List.suffix_cons ..
      · rw [hwords]
  | case2 st s item s' h e he =>
      rw [run_of_found h, he] at hrun
      cases hrun
  | case3 st s item s' h st₁ k hok ih =>
      rw [run_of_found h, hok] at hrun
      obtain ⟨hP, hsuffix⟩ := ih hrun (hkeep _ _ _ _ _ hst hok)
      exact ⟨hP, (hsuffix.trans (List.drop_suffix _ _)).trans (words_of_found spec h).1⟩

/-- If the scan begins with an option, that word is not left over. -/
theorem suffix_tail_of_run {w : List Char} {words : List (List Char)}
    (hrun : run spec handle st ⟨[], w :: words⟩ = .ok (st', rest)) (hopt : ¬ NonOption w) :
    rest <:+ words := by
  cases h : call spec ⟨[], w :: words⟩ with
  | ended rest' =>
      rw [run_of_ended h] at hrun
      cases hrun
      obtain ⟨-, hwords | ⟨hwords, hnon⟩⟩ := ended_cases spec h
      · rw [(List.cons.inj hwords).2]
      · subst hwords
        exact absurd (hnon w rfl) hopt
  | found item s' =>
      rw [run_of_found h] at hrun
      cases hok : handle st item s'.words with
      | error e =>
          rw [hok] at hrun
          cases hrun
      | ok r =>
          rw [hok] at hrun
          have hsuffix := (run_invariant (P := fun _ ↦ True) (by simp) hrun trivial).2
          exact (hsuffix.trans (List.drop_suffix _ _)).trans ((words_of_found spec h).2.2 rfl).1

/-- The words left over begin with an option only after a `--`. -/
theorem nonOption_of_run (hrun : run spec handle st s = .ok (st', rest))
    (hend : ['-', '-'] ∉ s.words) : ∀ w ∈ rest.head?, NonOption w := by
  induction st, s using run.induct spec handle with
  | case1 st s rest' h =>
      rw [run_of_ended h] at hrun
      cases hrun
      obtain ⟨-, hwords | ⟨-, hnon⟩⟩ := ended_cases spec h
      · rw [hwords] at hend
        exact absurd List.mem_cons_self hend
      · exact hnon
  | case2 st s item s' h e he =>
      rw [run_of_found h, he] at hrun
      cases hrun
  | case3 st s item s' h st₁ k hok ih =>
      rw [run_of_found h, hok] at hrun
      refine ih hrun fun hmem ↦ hend ?_
      exact (words_of_found spec h).1.subset (List.mem_of_mem_drop hmem)

/-! ## Options written by a program -/

theorem call_nonOption {w : List Char} (h : NonOption w) (words : List (List Char)) :
    call spec ⟨[], w :: words⟩ = .ended (w :: words) := by
  cases hcall : call spec ⟨[], w :: words⟩ with
  | ended rest' =>
      obtain ⟨-, hwords | ⟨hwords, -⟩⟩ := ended_cases spec hcall
      · rw [(List.cons.inj hwords).1] at h
        exact absurd h (not_nonOption _ _)
      · exact congrArg Result.ended hwords.symm
  | found item s' =>
      obtain ⟨-, w', hw', hopt⟩ := (words_of_found spec hcall).2.2 rfl
      obtain rfl : w = w' := by simpa using hw'
      exact absurd h hopt

theorem call_short {c : Char} (hc : c ≠ '-') (words : List (List Char)) :
    call spec ⟨[], ['-', c] :: words⟩ =
      .found (shortOption spec c [] words).1 (shortOption spec c [] words).2 := by
  rw [call]
  split
  · next h => cases h
  · split
    · next h => cases h
    · next h => exact absurd (by simpa using (List.cons.inj h).1) hc
    · next h => exact absurd (List.cons.inj (List.cons.inj (List.cons.inj h).1).2).1 hc
    · next h =>
        obtain ⟨hw, rfl⟩ := List.cons.inj h
        cases hw
        rfl
    · next hshort => exact absurd rfl (hshort c [] words)

/-- The words for options, each with a word for its argument if it has one. -/
def render (opts : List (Char × Option (List Char))) : List (List Char) :=
  opts.flatMap fun o ↦ ['-', o.1] :: o.2.toList

theorem render_append (opts opts' : List (Char × Option (List Char))) :
    render (opts ++ opts') = render opts ++ render opts' :=
  List.flatMap_append

/-- The option has an argument just if it requires one. -/
def Fits (optstring : List Char) (o : Char × Option (List Char)) : Prop :=
  o.1 ≠ '-' ∧ lookup optstring o.1 = some (if o.2 = none then .no else .required)

theorem fits_some {optstring : List Char} {c : Char} {w : List Char} :
    Fits optstring (c, some w) ↔ c ≠ '-' ∧ lookup optstring c = some .required := by
  simp [Fits]

theorem fits_none {optstring : List Char} {c : Char} :
    Fits optstring (c, none) ↔ c ≠ '-' ∧ lookup optstring c = some .no := by
  simp [Fits]

/-- Options are read back as they were written: each is given with its effect. -/
theorem run_render {opts : List ((Char × Option (List Char)) × (σ → σ))}
    (hfits : ∀ o ∈ opts, Fits spec.optstring o.1)
    (heffect : ∀ o ∈ opts, ∀ st words,
      handle st (.opt (spec.ofChar o.1.1) o.1.2) words = .ok (o.2 st, 0))
    (words : List (List Char)) :
    run spec handle st ⟨[], render (opts.map Prod.fst) ++ words⟩ =
      run spec handle (opts.foldl (fun st o ↦ o.2 st) st) ⟨[], words⟩ := by
  induction opts generalizing st with
  | nil => rfl
  | cons o opts ih =>
      obtain ⟨⟨c, arg⟩, effect⟩ := o
      obtain ⟨⟨hc, hlookup⟩, hrest⟩ := List.forall_mem_cons.mp hfits
      obtain ⟨hhandle, heffect⟩ := List.forall_mem_cons.mp heffect
      have hcall : call spec ⟨[], render ((c, arg) :: opts.map Prod.fst) ++ words⟩ =
          .found (.opt (spec.ofChar c) arg) ⟨[], render (opts.map Prod.fst) ++ words⟩ := by
        have hwords : render ((c, arg) :: opts.map Prod.fst) ++ words =
            ['-', c] :: (arg.toList ++ (render (opts.map Prod.fst) ++ words)) := by
          simp [render]
        rw [hwords, call_short hc]
        cases arg with
        | none => simp_all [shortOption]
        | some w => simp_all [shortOption]
      rw [List.map_cons, run_of_found hcall, hhandle]
      exact ih hrest heffect

end Run

end Getopt
