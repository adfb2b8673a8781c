import AxiomApps.Lib.CString
import AxiomApps.Lib.Slots

/-!
# The string list

`strlist_t` is an array of pointers that is reallocated with every insertion, at the head and at
the tail. The array is modelled by its bytes, because the call of `memmove` for an insertion at
the head counts bytes. The list is compared with what its documentation says of it: it is that
list exactly as long as nothing is put in front of an element, the lengths fit in an `int`, and
so do the sizes of the strings.
-/

namespace AxiomApps.StrList

open Slots

/-- A pointer to a string that `_insert` has copied: the call that allocated it, and the text
there. -/
structure Ptr where
  block : ℕ
  text : Option CString
  deriving DecidableEq

/-- `strlist_t`. `data` is the array it leads to, `allocs` the number of calls of `malloc` and
`realloc` so far. -/
structure Strlist where
  size : ℕ
  data : ℕ → Cell (Option Ptr)
  allocs : ℕ

abbrev sizeofCharPtr : ℕ := 8

/-- `int size = strlen(s) + 1`, converted to `size_t` where it is used. -/
def copySize (s : CString) : ℕ :=
  let size := (s.length + 1) % 2 ^ 32
  if size < 2 ^ 31 then size else 2 ^ 64 - 2 ^ 32 + size

/-- The text in `s2` after `strlcpy(s2, s, size)`, which writes nothing for the size 0. -/
def copyText (s : CString) : Option CString :=
  if copySize s = 0 then none else some (.ofArray (s.strlcpy [] (copySize s)))

section Source

-- `ok k`: the call number `k` of `malloc` or `realloc` succeeds
variable (ok : ℕ → Bool)

/-- `_insert`; none where the `int` overflows. -/
def insert (p : Strlist) (s : Option CString) (head : Bool) : Option Strlist :=
  if 2 ^ 31 ≤ p.size + 1 then none
  else if !ok p.allocs then some { p with allocs := p.allocs + 1 }
  else
    let size := p.size + 1
    let data := grow sizeofCharPtr p.size p.data
    -- the third argument of `memmove` is a number of bytes
    let data := if head then Memory.copy data 0 sizeofCharPtr (size - 1) else data
    let idx := if head then 0 else size - 1
    match s with
    | none => some ⟨size, store sizeofCharPtr data idx none, p.allocs + 1⟩
    | some s =>
        if ok (p.allocs + 1) then
          some ⟨size, store sizeofCharPtr data idx (some ⟨p.allocs + 1, copyText s⟩), p.allocs + 2⟩
        else some ⟨size, data, p.allocs + 2⟩

def slAppend (p : Strlist) (s : Option CString) : Option Strlist := insert ok p s false

def slInsert (p : Strlist) (s : Option CString) : Option Strlist := insert ok p s true

/-- `_insert_all`; the array is given by the strings before its NULL. -/
def insertAll (p : Strlist) (args : Option (List CString)) (head : Bool) : Option Strlist :=
  match args with
  | none => some p
  | some args => args.foldlM (fun p s ↦ insert ok p (some s) head) p

def slAppendAll (p : Strlist) (args : Option (List CString)) : Option Strlist :=
  insertAll ok p args false

def slInsertAll (p : Strlist) (args : Option (List CString)) : Option Strlist :=
  insertAll ok p args true

def slInit (p : Strlist) : Strlist := { p with size := 0, data := fun _ ↦ .unset }

/-- The loop of `sl_free`: none if it reads a slot that holds no pointer, or frees a string
twice. -/
def freeSlots (freed : List ℕ) : List (Option (Option Ptr)) → Option (List ℕ)
  | [] => some freed
  | none :: _ => none
  | some none :: rest => freeSlots freed rest
  | some (some q) :: rest => if q.block ∈ freed then none else freeSlots (q.block :: freed) rest

def slFree (p : Strlist) : Option Strlist :=
  (freeSlots [] ((List.range p.size).map (slot sizeofCharPtr p.data))).map fun _ ↦ slInit p

/-- What a pointer of the list stands for: NULL, or a string if one has been written. -/
def deref : Option Ptr → Option (Option CString)
  | none => some none
  | some q => q.text.map some

/-- The `size` elements of the array that `sl_get` returns; none is an element without a
determined value. -/
def slGet (p : Strlist) : List (Option (Option CString)) :=
  (List.range p.size).map fun i ↦ (slot sizeofCharPtr p.data i).bind deref

inductive Op
  | init
  | append (s : Option CString)
  | insert (s : Option CString)
  | appendAll (args : Option (List CString))
  | insertAll (args : Option (List CString))
  | free

def apply (p : Strlist) : Op → Option Strlist
  | .init => some (slInit p)
  | .append s => slAppend ok p s
  | .insert s => slInsert ok p s
  | .appendAll args => slAppendAll ok p args
  | .insertAll args => slInsertAll ok p args
  | .free => slFree p

end Source

/-! ## The documented list -/

def given (args : Option (List CString)) : List CString := args.getD []

/-- `l'` is a list that may follow `l`. The documentation leaves open in which order
`sl_insert_all` puts its strings at the head. -/
def Documented (l : List (Option CString)) (l' : List (Option CString)) : Op → Prop
  | .init | .free => l' = []
  | .append s => l' = l ++ [s]
  | .insert s => l' = s :: l
  | .appendAll args => l' = l ++ (given args).map some
  | .insertAll args => ∃ front, front.Perm ((given args).map some) ∧ l' = front ++ l

def Shows (p : Strlist) (l : List (Option CString)) : Prop :=
  p.size = l.length ∧ slGet p = l.map some

/-- Every operation of the sequence is defined and leaves a list that may follow the one
before. -/
def Lawful (ok : ℕ → Bool) (p : Strlist) (l : List (Option CString)) : List Op → Prop
  | [] => True
  | op :: ops => ∃ p' l', apply ok p op = some p' ∧ Documented l l' op ∧ Shows p' l' ∧
      Lawful ok p' l' ops

/-! ## The condition -/

/-- The size of the string is not cut by its conversion to `int`. -/
def Kept (s : CString) : Prop := s.length < copySize s

def Tame (l : List (Option CString)) : Op → Prop
  | .init | .free => True
  | .append s => l.length + 1 < 2 ^ 31 ∧ ∀ t ∈ s, Kept t
  | .insert s => l = [] ∧ ∀ t ∈ s, Kept t
  | .appendAll args => l.length + (given args).length < 2 ^ 31 ∧ ∀ t ∈ given args, Kept t
  | .insertAll args => (given args = [] ∨ l = [] ∧ (given args).length = 1) ∧
      ∀ t ∈ given args, Kept t

def after (l : List (Option CString)) : Op → List (Option CString)
  | .init | .free => []
  | .append s => l ++ [s]
  | .insert s => s :: l
  | .appendAll args => l ++ (given args).map some
  | .insertAll args => (given args).map some ++ l

def TameAll (l : List (Option CString)) : List Op → Prop
  | [] => True
  | op :: ops => Tame l op ∧ TameAll (after l op) ops

instance (s : CString) : Decidable (Kept s) :=
  inferInstanceAs (Decidable (s.length < copySize s))

instance (l : List (Option CString)) (op : Op) : Decidable (Tame l op) :=
  match op with
  | .init | .free => .isTrue trivial
  | .append _ | .insert _ | .appendAll _ | .insertAll _ => instDecidableAnd

instance decidableTameAll (l : List (Option CString)) (ops : List Op) :
    Decidable (TameAll l ops) :=
  match ops with
  | [] => .isTrue trivial
  | op :: ops =>
      have := decidableTameAll (after l op) ops
      instDecidableAnd

theorem documented_after (l : List (Option CString)) (op : Op) : Documented l (after l op) op := by
  cases op with
  | insertAll args => exact ⟨_, .refl _, rfl⟩
  | _ => rfl

theorem Shows.unique {p : Strlist} {l l' : List (Option CString)} (h : Shows p l)
    (h' : Shows p l') : l = l' :=
  List.map_injective_iff.mpr (Option.some_injective _) (h.2.symm.trans h'.2)

/-! ## What the array holds -/

def blocks (ps : List (Option Ptr)) : List ℕ := ps.filterMap (Option.map Ptr.block)

/-- Every slot of the array holds a pointer, each to a string of its own. -/
structure Holds (p : Strlist) (ps : List (Option Ptr)) : Prop where
  size_eq : p.size = ps.length
  size_lt : p.size < 2 ^ 31
  slots : ∀ i q, ps[i]? = some q → slot sizeofCharPtr p.data i = some q
  old : ∀ b ∈ blocks ps, b < p.allocs
  distinct : (blocks ps).Nodup

variable {ok : ℕ → Bool} {p p' : Strlist} {ps qs : List (Option Ptr)} {s : Option CString}
variable {head : Bool} {l l' ss : List (Option CString)} {op : Op}

theorem holds_slInit (p : Strlist) : Holds (slInit p) [] where
  size_eq := rfl
  size_lt := Nat.two_pow_pos 31
  slots := by simp
  old := by simp [blocks]
  distinct := List.nodup_nil

theorem freeSlots_isSome {freed : List ℕ} (hdistinct : (blocks ps).Nodup)
    (hfreed : ∀ b ∈ blocks ps, b ∉ freed) : (freeSlots freed (ps.map some)).isSome := by
  induction ps generalizing freed with
  | nil => rfl
  | cons q ps ih =>
      cases q with
      | none => exact ih hdistinct hfreed
      | some q =>
          have hblocks : blocks (some q :: ps) = q.block :: blocks ps := rfl
          rw [hblocks] at hdistinct hfreed
          rw [List.map_cons, freeSlots, if_neg (hfreed _ (List.mem_cons_self ..))]
          refine ih hdistinct.of_cons fun b hb hmem ↦ ?_
          rcases List.mem_cons.mp hmem with rfl | hmem
          · exact (List.nodup_cons.mp hdistinct).1 hb
          · exact hfreed b (List.mem_cons_of_mem _ hb) hmem

namespace Holds

theorem slots_eq (h : Holds p ps) :
    (List.range p.size).map (slot sizeofCharPtr p.data) = ps.map some := by
  refine List.ext_getElem (by simp [h.size_eq]) fun i _ hi ↦ ?_
  rw [List.getElem_map, List.getElem_range, List.getElem_map]
  rw [List.length_map] at hi
  exact h.slots i _ (List.getElem?_eq_getElem hi)

theorem slGet_eq (h : Holds p ps) : slGet p = ps.map deref := by
  have hcomp : slGet p = ((List.range p.size).map (slot sizeofCharPtr p.data)).map
      (Option.bind · deref) := by
    simp [slGet]
  rw [hcomp, h.slots_eq, List.map_map]
  rfl

theorem shows_iff (h : Holds p ps) : Shows p l ↔ ps.map deref = l.map some := by
  rw [Shows, h.slGet_eq, h.size_eq]
  refine and_iff_right_of_imp fun heq ↦ ?_
  simpa using congrArg List.length heq

theorem freed (h : Holds p ps) : slFree p = some (slInit p) := by
  have hsome : (freeSlots [] (ps.map some)).isSome := freeSlots_isSome h.distinct (by simp)
  obtain ⟨freed, hfreed⟩ := Option.isSome_iff_exists.mp hsome
  rw [slFree, h.slots_eq, hfreed, Option.map_some]

end Holds

/-! ## Insertions -/

theorem copyText_eq_some_iff (t : CString) : copyText t = some t ↔ Kept t := by
  unfold copyText Kept
  split
  · simp [*]
  · rw [Option.some_inj, CString.ofArray_strlcpy_eq_iff _ _ (Nat.pos_of_ne_zero ‹_›)]

def element (s : Option CString) : Option (Option CString) :=
  s.elim (some none) fun t ↦ (copyText t).map some

theorem element_eq_some_iff : element s = some s ↔ ∀ t ∈ s, Kept t := by
  cases s with
  | none => simp [element]
  | some t => simp [element, ← copyText_eq_some_iff]

/-- With the new strings behind the others, the list is the documented one if they are whole. -/
theorem Holds.shows_append_iff (h : Holds p (ps ++ qs)) (hl : ps.map deref = l.map some)
    (hss : qs.map deref = ss.map element) :
    Shows p (l ++ ss) ↔ ∀ s ∈ ss, ∀ t ∈ s, Kept t := by
  rw [h.shows_iff, List.map_append, List.map_append, hl, List.append_cancel_left_eq, hss,
    List.map_inj_left]
  exact forall₂_congr fun s _ ↦ element_eq_some_iff

/-- A list with a slot that holds no pointer is none that could be documented. -/
theorem not_shows_of_slot {i : ℕ} (hi : i < p.size) (h : slot sizeofCharPtr p.data i = none) :
    ¬ Shows p l := by
  rintro ⟨-, hget⟩
  have hmem : none ∈ slGet p := List.mem_map.mpr ⟨i, List.mem_range.mpr hi, by rw [h]; rfl⟩
  rw [hget] at hmem
  simp at hmem

theorem insertAll_eq (p : Strlist) (args : Option (List CString)) (head : Bool) :
    insertAll ok p args head = (given args).foldlM (fun p s ↦ insert ok p (some s) head) p := by
  cases args <;> rfl

section Insertion

variable (hok : ∀ k, ok k = true)

include hok

theorem insert_eq (p : Strlist) (s : Option CString) (head : Bool) (hsize : p.size + 1 < 2 ^ 31) :
    ∃ q allocs, insert ok p s head = some ⟨p.size + 1, store sizeofCharPtr
      (if head then Memory.copy (grow sizeofCharPtr p.size p.data) 0 sizeofCharPtr p.size
        else grow sizeofCharPtr p.size p.data) (if head then 0 else p.size) q, allocs⟩ ∧
      deref q = element s ∧ p.allocs ≤ allocs ∧
      ∀ b ∈ blocks [q], p.allocs ≤ b ∧ b < allocs := by
  have hlt : ¬ 2 ^ 31 ≤ p.size + 1 := not_le.mpr hsize
  cases s with
  | none =>
      refine ⟨none, p.allocs + 1, ?_, rfl, by omega, by simp [blocks]⟩
      rw [insert, if_neg hlt]
      simp [hok]
  | some t =>
      refine ⟨some ⟨p.allocs + 1, copyText t⟩, p.allocs + 2, ?_, rfl, by omega, by simp [blocks]⟩
      rw [insert, if_neg hlt]
      simp [hok]

theorem size_insert (h : insert ok p s head = some p') :
    p'.size = p.size + 1 ∧ p'.size < 2 ^ 31 := by
  by_cases hsize : p.size + 1 < 2 ^ 31
  · obtain ⟨q, allocs, heq, -⟩ := insert_eq hok p s head hsize
    obtain rfl := Option.some.inj (heq.symm.trans h)
    exact ⟨rfl, hsize⟩
  · rw [insert, if_pos (not_lt.mp hsize)] at h
    cases h

/-- The new string comes behind the others at the tail, and at the head of an empty list. -/
theorem Holds.inserted (h : Holds p ps) (hhead : head = true → ps = [])
    (hins : insert ok p s head = some p') : ∃ q, Holds p' (ps ++ [q]) ∧ deref q = element s := by
  obtain ⟨hsize, hlt⟩ := size_insert hok hins
  obtain ⟨q, allocs, heq, hq, hallocs, hnew⟩ := insert_eq hok p s head (hsize ▸ hlt)
  have hidx : (if head then 0 else p.size) = ps.length := by
    rw [h.size_eq]
    split
    · simp [hhead ‹_›]
    · rfl
  rw [hidx] at heq
  obtain rfl := Option.some.inj (heq.symm.trans hins)
  have hblocks : blocks (ps ++ [q]) = blocks ps ++ blocks [q] := List.filterMap_append
  refine ⟨q, ⟨by simp [h.size_eq], hlt, ?_, ?_, ?_⟩, hq⟩
  · intro i r hr
    rcases Nat.lt_trichotomy i ps.length with hi | rfl | hi
    · have htail : ¬ head = true := by
        intro hh
        simp [hhead hh] at hi
      rw [List.getElem?_append_left hi] at hr
      rw [slot_store_of_ne (Nat.ne_of_lt hi), if_neg htail,
        slot_grow_of_lt (h.size_eq ▸ hi), h.slots i r hr]
    · obtain rfl : q = r := by simpa using hr
      exact slot_store_self
    · simp [hi] at hr
  · intro b hb
    rw [hblocks, List.mem_append] at hb
    rcases hb with hb | hb
    · exact (h.old b hb).trans_le hallocs
    · exact (hnew b hb).2
  · rw [hblocks, List.nodup_append]
    refine ⟨h.distinct, ?_, ?_⟩
    · cases q <;> simp [blocks]
    · intro b hb b' hb'
      exact ((h.old b hb).trans_le (hnew b' hb').1).ne

/-- An insertion in front of an element leaves the last slot as `realloc` has handed it out. -/
theorem not_shows_insert (hne : p.size ≠ 0) (h : insert ok p s true = some p') : ¬ Shows p' l := by
  obtain ⟨hsize, hlt⟩ := size_insert hok h
  obtain ⟨q, allocs, heq, -⟩ := insert_eq hok p s true (hsize ▸ hlt)
  obtain rfl := Option.some.inj (heq.symm.trans h)
  refine not_shows_of_slot (i := p.size) (Nat.lt_succ_self _) ?_
  have hbytes : 0 + p.size ≤ sizeofCharPtr * p.size := by
    rw [sizeofCharPtr]
    omega
  simp only [if_true]
  rw [slot_store_of_ne hne, slot_copy_of_le hbytes, slot_grow_new le_rfl]

theorem exists_insert (s : Option CString) (head : Bool) (hsize : p.size + 1 < 2 ^ 31) :
    ∃ p', insert ok p s head = some p' := by
  obtain ⟨q, allocs, heq, -⟩ := insert_eq hok p s head hsize
  exact ⟨_, heq⟩

theorem size_foldlM (ts : List CString)
    (h : ts.foldlM (fun p s ↦ insert ok p (some s) head) p = some p') :
    p'.size = p.size + ts.length ∧ (p.size < 2 ^ 31 → p'.size < 2 ^ 31) := by
  induction ts generalizing p with
  | nil =>
      obtain rfl : p = p' := by simpa using h
      exact ⟨rfl, id⟩
  | cons t ts ih =>
      rw [List.foldlM_cons] at h
      obtain ⟨p₁, hp₁, hrest⟩ := Option.bind_eq_some_iff.mp h
      obtain ⟨hsize, hlt⟩ := size_insert hok hp₁
      obtain ⟨hsize', hlt'⟩ := ih hrest
      exact ⟨by rw [hsize', hsize, List.length_cons]; omega, fun _ ↦ hlt' hlt⟩

/-- All strings of the array come behind the others, in their order. -/
theorem Holds.inserted_all (h : Holds p ps) (ts : List CString)
    (hins : ts.foldlM (fun p s ↦ insert ok p (some s) false) p = some p') :
    ∃ qs, Holds p' (ps ++ qs) ∧ qs.map deref = (ts.map some).map element := by
  induction ts generalizing p ps with
  | nil =>
      obtain rfl : p = p' := by simpa using hins
      exact ⟨[], by simpa using h, rfl⟩
  | cons t ts ih =>
      rw [List.foldlM_cons] at hins
      obtain ⟨p₁, hp₁, hrest⟩ := Option.bind_eq_some_iff.mp hins
      obtain ⟨q, hq, hderef⟩ := h.inserted hok (by simp) hp₁
      obtain ⟨qs, hqs, hmap⟩ := ih hq hrest
      refine ⟨q :: qs, ?_, ?_⟩
      · simpa using hqs
      · simp only [List.map_cons, hderef, hmap]

theorem exists_foldlM (ts : List CString) (head : Bool) (hsize : p.size + ts.length < 2 ^ 31) :
    ∃ p', ts.foldlM (fun p s ↦ insert ok p (some s) head) p = some p' := by
  induction ts generalizing p with
  | nil => exact ⟨p, rfl⟩
  | cons t ts ih =>
      rw [List.length_cons] at hsize
      obtain ⟨p₁, hp₁⟩ := exists_insert hok (some t) head (p := p) (by omega)
      obtain ⟨p', hp'⟩ := ih (p := p₁) (by rw [(size_insert hok hp₁).1]; omega)
      exact ⟨p', by rw [List.foldlM_cons, hp₁]; exact hp'⟩

end Insertion

/-! ## Operations and sequences of them -/

/-- The array shows the list, and with pointers only. -/
structure Rep (p : Strlist) (l : List (Option CString)) : Prop where
  holds : ∃ ps, Holds p ps
  shown : Shows p l

theorem rep_slInit (p : Strlist) : Rep (slInit p) [] :=
  ⟨⟨[], holds_slInit p⟩, (holds_slInit p).shows_iff.mpr rfl⟩

section Operations

variable (hok : ∀ k, ok k = true)

include hok

theorem Rep.inserted (h : Rep p l) (hhead : head = true → l = [])
    (hins : insert ok p s head = some p') :
    (∃ ps, Holds p' ps) ∧ (Shows p' (l ++ [s]) ↔ ∀ t ∈ s, Kept t) := by
  obtain ⟨⟨ps, hps⟩, hl⟩ := h
  rw [hps.shows_iff] at hl
  obtain ⟨q, hq, hderef⟩ := hps.inserted hok (fun hh ↦ by simpa [hhead hh] using hl) hins
  refine ⟨⟨_, hq⟩, ?_⟩
  rw [hq.shows_append_iff hl (by simp [hderef] : [q].map deref = [s].map element)]
  simp

theorem Rep.inserted_all (h : Rep p l) (ts : List CString)
    (hins : ts.foldlM (fun p s ↦ insert ok p (some s) false) p = some p') :
    (∃ ps, Holds p' ps) ∧ (Shows p' (l ++ ts.map some) ↔ ∀ t ∈ ts, Kept t) := by
  obtain ⟨⟨ps, hps⟩, hl⟩ := h
  rw [hps.shows_iff] at hl
  obtain ⟨qs, hqs, hderef⟩ := hps.inserted_all hok ts hins
  refine ⟨⟨_, hqs⟩, ?_⟩
  rw [hqs.shows_append_iff hl hderef]
  simp

theorem Rep.insert_of_kept (h : Rep p l) (hhead : head = true → l = [])
    (hsize : l.length + 1 < 2 ^ 31) (hs : ∀ t ∈ s, Kept t) :
    ∃ p', insert ok p s head = some p' ∧ Rep p' (l ++ [s]) := by
  obtain ⟨p', hp'⟩ := exists_insert hok s head (h.shown.1 ▸ hsize)
  obtain ⟨hholds, hshows⟩ := h.inserted hok hhead hp'
  exact ⟨p', hp', hholds, hshows.mpr hs⟩

theorem Rep.apply_of_tame (h : Rep p l) (htame : Tame l op) :
    ∃ p', apply ok p op = some p' ∧ Rep p' (after l op) := by
  cases op with
  | init => exact ⟨_, rfl, rep_slInit p⟩
  | free =>
      obtain ⟨ps, hps⟩ := h.holds
      exact ⟨_, hps.freed, rep_slInit p⟩
  | append s => exact h.insert_of_kept hok (by simp) htame.1 htame.2
  | insert s =>
      obtain ⟨rfl, hs⟩ := htame
      exact h.insert_of_kept hok (fun _ ↦ rfl) (by simp) hs
  | appendAll args =>
      obtain ⟨hsize, hs⟩ := htame
      rw [apply, slAppendAll, insertAll_eq]
      obtain ⟨p', hp'⟩ := exists_foldlM hok (given args) false (h.shown.1 ▸ hsize)
      obtain ⟨hholds, hshows⟩ := h.inserted_all hok (given args) hp'
      exact ⟨p', hp', hholds, hshows.mpr hs⟩
  | insertAll args =>
      obtain ⟨hargs | ⟨rfl, hone⟩, hs⟩ := htame
      · rw [apply, slInsertAll, insertAll_eq, after, hargs]
        exact ⟨p, rfl, h⟩
      · obtain ⟨t, ht⟩ := List.length_eq_one_iff.mp hone
        rw [apply, slInsertAll, insertAll_eq, after]
        rw [ht] at hs ⊢
        obtain ⟨p', hp', hrep⟩ :=
          h.insert_of_kept hok (fun _ ↦ rfl) (by simp) (s := some t) (by simpa using hs)
        exact ⟨p', by simpa using hp', hrep⟩

theorem Rep.eq_nil_of_insert (h : Rep p l) (hins : insert ok p s true = some p')
    (hshows : Shows p' l') : l = [] := by
  by_contra hne
  refine not_shows_insert hok ?_ hins hshows
  rw [h.shown.1]
  simpa using hne

theorem Rep.tame_of_shows (h : Rep p l) (happly : apply ok p op = some p')
    (hdoc : Documented l l' op) (hshows : Shows p' l') : Tame l op := by
  have hsize := h.shown.1
  cases op with
  | init => trivial
  | free => trivial
  | append s =>
      obtain rfl : l' = l ++ [s] := hdoc
      obtain ⟨hsize', hlt⟩ := size_insert hok happly
      exact ⟨by omega, (h.inserted hok (by simp) happly).2.mp hshows⟩
  | insert s =>
      obtain rfl : l = [] := h.eq_nil_of_insert hok happly hshows
      obtain rfl : l' = [s] := hdoc
      exact ⟨rfl, (h.inserted hok (fun _ ↦ rfl) happly).2.mp hshows⟩
  | appendAll args =>
      obtain rfl : l' = l ++ (given args).map some := hdoc
      rw [apply, slAppendAll, insertAll_eq] at happly
      obtain ⟨hsize', hlt⟩ := size_foldlM hok (given args) happly
      obtain ⟨ps, hps⟩ := h.holds
      have hlt' := hlt hps.size_lt
      exact ⟨by omega, (h.inserted_all hok (given args) happly).2.mp hshows⟩
  | insertAll args =>
      obtain ⟨front, hperm, rfl⟩ := hdoc
      rw [apply, slInsertAll, insertAll_eq] at happly
      rw [Tame]
      generalize given args = ts at hperm happly ⊢
      -- the last string goes to the head, so there was nothing before it
      rcases List.eq_nil_or_concat ts with rfl | ⟨ts, t, rfl⟩
      · simp
      · rw [List.concat_eq_append, List.foldlM_append] at happly
        obtain ⟨p₁, hp₁, hlast⟩ := Option.bind_eq_some_iff.mp happly
        have hins : insert ok p₁ (some t) true = some p' := by simpa using hlast
        have hempty : p₁.size = 0 := by
          by_contra hne
          exact not_shows_insert hok hne hins hshows
        rw [(size_foldlM hok ts hp₁).1, hsize] at hempty
        obtain rfl : l = [] := List.length_eq_zero_iff.mp (by omega)
        obtain rfl : ts = [] := List.length_eq_zero_iff.mp (by omega)
        obtain rfl : front = [some t] := List.perm_singleton.mp hperm
        obtain rfl : p = p₁ := by simpa using hp₁
        have hkept := (h.inserted hok (fun _ ↦ rfl) hins).2.mp hshows
        exact ⟨.inr ⟨rfl, rfl⟩, by simpa using hkept⟩

theorem Rep.lawful_iff (h : Rep p l) (ops : List Op) : Lawful ok p l ops ↔ TameAll l ops := by
  induction ops generalizing p l with
  | nil => exact Iff.rfl
  | cons op ops ih =>
      constructor
      · rintro ⟨p', l', happly, hdoc, hshows, hrest⟩
        have htame := h.tame_of_shows hok happly hdoc hshows
        obtain ⟨p'', happly', hrep⟩ := h.apply_of_tame hok htame
        obtain rfl := Option.some.inj (happly.symm.trans happly')
        obtain rfl := hshows.unique hrep.shown
        exact ⟨htame, (ih hrep).mp hrest⟩
      · rintro ⟨htame, hrest⟩
        obtain ⟨p', happly, hrep⟩ := h.apply_of_tame hok htame
        exact ⟨p', _, happly, documented_after l op, hrep.shown, (ih hrep).mpr hrest⟩

end Operations

/-- From an initialised list on, and with allocations that succeed, a sequence of operations has
the documented results exactly if each of its operations is within the condition. -/
theorem strlist_documented_iff (ok : ℕ → Bool) (hok : ∀ k, ok k = true) (p : Strlist)
    (ops : List Op) : Lawful ok (slInit p) [] ops ↔ TameAll [] ops :=
  (rep_slInit p).lawful_iff hok ops

theorem strlist_documented_appends :
    (∀ k : ℕ, (fun _ ↦ true) k = true) ∧
      Lawful (fun _ ↦ true) (slInit ⟨7, fun _ ↦ .unset, 0⟩) [] [.insert (some (.ofArray [97])),
        .append none, .appendAll (some [.ofArray [98], .ofArray [99]]), .insertAll none, .free] :=
  ⟨fun _ ↦ rfl, (strlist_documented_iff _ (fun _ ↦ rfl) _ _).mpr (by decide)⟩

/-- With "b" inserted before "a", the array holds "b" in place of "a", and a second element
that nobody has written. -/
theorem insert_loses_first :
    ((slAppend (fun _ ↦ true) (slInit ⟨0, fun _ ↦ .unset, 0⟩) (some (.ofArray [97]))).bind
      fun p ↦ slInsert (fun _ ↦ true) p (some (.ofArray [98]))).map slGet =
        some [some (some (.ofArray [98])), none] ∧
      ¬ Lawful (fun _ ↦ true) (slInit ⟨0, fun _ ↦ .unset, 0⟩) []
        [.append (some (.ofArray [97])), .insert (some (.ofArray [98]))] :=
  ⟨by decide, fun h ↦ absurd (((rep_slInit _).lawful_iff (fun _ ↦ rfl) _).mp h) (by decide)⟩

end AxiomApps.StrList
