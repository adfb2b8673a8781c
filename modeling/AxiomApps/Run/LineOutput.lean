import AxiomApps.Lib.Lines
import AxiomApps.Run.Output

/-!
# Lines of redirected output

`emit` is told of the output of a node in chunks, but what it writes and what it keeps depends
on the lines of the stream only, as long as the pending part of a line fits the buffer. Of a
line that does not, a part is written before the line is complete, without identification.
-/

namespace AxiomApps.Run.Output

open Lines

variable {ω : Type*}

/-! ## Marked output

What is written for a node is a list of marks: a byte of its output, or `none` where it is
identified. The newlines `flush` adds are not the node's.
-/

def Write.marks (w : Write) : List (Option UInt8) :=
  match w.kind with
  | .ident => [none]
  | .data => w.bytes.map some
  | .newline => []

namespace Fout

/-- The file's contents. -/
def bytes (f : Fout ω) : List UInt8 := f.writes.flatMap Write.bytes

end Fout

/-- The text of a mark. -/
def markText (flags node : ℕ) : Option UInt8 → List UInt8
  | none => identText (alternateIdentFlag flags) node
  | some b => [b]

/-- From `f` to `f'` the marks `ms` are written for `node`, identifications in the form the
flags select, and nothing else. -/
def Marks (flags node : ℕ) (ms : List (Option UInt8)) (f f' : Fout ω) : Prop :=
  ∃ ws, f'.writes = f.writes ++ ws ∧ ws.flatMap Write.marks = ms ∧
    ∀ w ∈ ws, w.node = node ∧ w.kind ≠ .newline ∧
      (w.kind = .ident → w.bytes = identText (alternateIdentFlag flags) node)

namespace Marks

variable {flags node : ℕ} {ms ns : List (Option UInt8)} {f f' f'' : Fout ω}

theorem refl (flags node : ℕ) (f : Fout ω) : Marks flags node [] f f :=
  ⟨[], by simp, rfl, by simp⟩

theorem trans (h : Marks flags node ms f f') (h' : Marks flags node ns f' f'') :
    Marks flags node (ms ++ ns) f f'' := by
  obtain ⟨ws, hws, rfl, hall⟩ := h
  obtain ⟨vs, hvs, rfl, hall'⟩ := h'
  refine ⟨ws ++ vs, by rw [hvs, hws, List.append_assoc], List.flatMap_append, fun w hw ↦ ?_⟩
  exact (List.mem_append.mp hw).elim (hall w) (hall' w)

theorem ident (flags node : ℕ) (f : Fout ω) : Marks flags node [none] f (f.ident flags node) :=
  ⟨[⟨node, .ident, identText (alternateIdentFlag flags) node⟩], rfl, rfl, by simp⟩

theorem put_data (flags node : ℕ) (bs : List UInt8) (f : Fout ω) (w : ω) :
    Marks flags node (bs.map some) f { f.put node .data bs with world := w } :=
  ⟨[⟨node, .data, bs⟩], rfl, by simp [Write.marks], by simp⟩

theorem output (io : Stdio ω) (flags node : ℕ) (bs : List UInt8) (f : Fout ω) :
    Marks flags node (bs.map some) f (output io node bs f) := by
  fun_induction Output.output io node bs f with
  | case1 f => exact refl flags node f
  | case2 bs f hne r hzero => exact absurd hzero (io.pos f.world bs hne).ne'
  | case3 bs f hne r hpos ih =>
      have h := (put_data flags node (bs.take r.2) f r.1).trans ih
      rwa [← List.map_append, List.take_append_drop] at h

theorem bytes_eq (h : Marks flags node ms f f') :
    f'.bytes = f.bytes ++ ms.flatMap (markText flags node) := by
  obtain ⟨ws, hws, rfl, hall⟩ := h
  rw [Fout.bytes, hws, List.flatMap_append, List.flatMap_assoc]
  refine congrArg _ (List.flatMap_congr fun w hw ↦ ?_)
  obtain ⟨-, hkind, hident⟩ := hall w hw
  rw [Write.marks]
  split
  · next hk => simp [markText, hident hk]
  · simp [markText, List.flatMap_map]
  · next hk => exact absurd hk hkind

end Marks

/-! ## Newlines -/

theorem memchr_of_not_mem {bs : List UInt8} (h : newline ∉ bs) : memchr bs = none := by
  simp only [memchr, List.findIdx?_eq_none_iff, decide_eq_false_iff_not]
  rintro b hb rfl
  exact h hb

theorem memchr_line {l t : List UInt8} (h : newline ∉ l) :
    memchr (l ++ newline :: t) = some l.length := by
  have hl := memchr_of_not_mem h
  simp only [memchr] at hl ⊢
  simp [List.findIdx?_append, hl, List.findIdx?_cons]

theorem memrchr_of_not_mem {bs : List UInt8} (h : newline ∉ bs) : memrchr bs = none := by
  have hr : memchr bs.reverse = none := memchr_of_not_mem (by simpa using h)
  simp only [memchr] at hr
  simp [memrchr, hr]

theorem memrchr_last {s t : List UInt8} (h : newline ∉ t) :
    memrchr (s ++ newline :: t) = some s.length := by
  have hr : memchr (t.reverse ++ newline :: s.reverse) = some t.reverse.length :=
    memchr_line (by simpa using h)
  simp only [memchr] at hr
  simp only [memrchr, List.reverse_append, List.reverse_cons, List.append_assoc,
    List.singleton_append, hr, Option.map_some, Option.some.injEq, List.length_append,
    List.length_cons, List.length_reverse]
  omega

/-! ## What `emit` writes -/

/-- Complete lines as they are written, each identified if the flags ask for it. -/
def markLines (flags : ℕ) (ls : List (List UInt8)) : List (Option UInt8) :=
  if identFlag flags then ls.flatMap fun l ↦ none :: l.map some else ls.flatten.map some

theorem markLines_append (flags : ℕ) (ls ls' : List (List UInt8)) :
    markLines flags (ls ++ ls') = markLines flags ls ++ markLines flags ls' := by
  simp only [markLines]
  split_ifs <;> simp

section Emit

variable (io : Stdio ω) {maxBufferSize flags node : ℕ} {l t : List UInt8}

/-- One turn of the loop writes one line. -/
theorem emitLines_step (flags node : ℕ) (noStopEmit : Bool) (l t : List UInt8) (f : Fout ω) :
    ∃ f', emitLines io flags node noStopEmit (l ++ newline :: t) l.length f =
        (match memchr t with
          | none => (f', t)
          | some q => emitLines io flags node true t q f') ∧
      Marks flags node ((if identFlag flags && noStopEmit then [none] else []) ++
        (l ++ [newline]).map some) f f' := by
  have htake : (l ++ newline :: t).take (l.length + 1) = l ++ [newline] := by
    simp [List.take_append]
  have hdrop : (l ++ newline :: t).drop (l.length + 1) = t := by simp [List.drop_append]
  refine ⟨output io node (l ++ [newline])
    (if identFlag flags && noStopEmit then f.ident flags node else f), ?_, ?_⟩
  · rw [emitLines]
    simp only [htake, hdrop]
    split <;> simp_all
  · refine Marks.trans ?_ (.output io flags node _ _)
    split
    · exact .ident flags node f
    · exact .refl flags node f

theorem emitLines_ident (node : ℕ) (hident : identFlag flags = true) (hl : newline ∉ l)
    (noStopEmit : Bool) (f : Fout ω) :
    ∃ f', emitLines io flags node noStopEmit (l ++ newline :: t) l.length f =
        (f', rest newline t) ∧
      Marks flags node ((if noStopEmit then [none] else []) ++ (l ++ [newline]).map some ++
        markLines flags (complete newline t)) f f' := by
  induction t using line_induction newline generalizing l noStopEmit f with
  | hopen t ht =>
      obtain ⟨f', hf', hmarks⟩ := emitLines_step io flags node noStopEmit l t f
      rw [memchr_of_not_mem ht] at hf'
      obtain ⟨hcomplete, hrest⟩ := split_of_not_mem ht
      refine ⟨f', by rw [hf', hrest], ?_⟩
      simpa [hcomplete, markLines, hident] using hmarks
  | hline l' t hl' ih =>
      obtain ⟨f₁, hf₁, hmarks₁⟩ := emitLines_step io flags node noStopEmit l (l' ++ newline :: t) f
      rw [memchr_line hl'] at hf₁
      obtain ⟨f₂, hf₂, hmarks₂⟩ := ih hl' true f₁
      obtain ⟨hcomplete, hrest⟩ := split_line (t := t) hl'
      refine ⟨f₂, by rw [hf₁, hrest]; exact hf₂, ?_⟩
      have hmarks := hmarks₁.trans hmarks₂
      simpa [hcomplete, markLines, hident] using hmarks

theorem emitLines_plain (node : ℕ) (hident : identFlag flags = false) (ht : newline ∉ t)
    (noStopEmit : Bool) (f : Fout ω) :
    ∃ f', emitLines io flags node noStopEmit (l ++ newline :: t) l.length f = (f', t) ∧
      Marks flags node ((l ++ [newline]).map some) f f' := by
  obtain ⟨f', hf', hmarks⟩ := emitLines_step io flags node noStopEmit l t f
  rw [memchr_of_not_mem ht] at hf'
  exact ⟨f', hf', by simpa [hident] using hmarks⟩

variable {buffer : List UInt8} {st : Info × Fout ω}

/-- The pending output, written first when a line is complete. -/
theorem marks_pending (st : Info × Fout ω) :
    Marks flags node
      (if st.1 node = [] then []
        else (if identFlag flags then [none] else []) ++ (st.1 node).map some) st.2
      (if st.1 node = [] then st.2
        else output io node (st.1 node)
          (if identFlag flags = true then st.2.ident flags node else st.2)) := by
  split_ifs
  · exact .refl flags node _
  · exact (Marks.ident flags node _).trans (.output io flags node _ _)
  · exact (Marks.refl flags node _).trans (.output io flags node _ _)

/-- What the end of a chunk leaves fits the buffer, so the assertion holds. -/
theorem emitComplete_eq {p : ℕ} {f : Fout ω} {kept : List UInt8}
    (hlines : emitLines io flags node (decide (st.1 node = [])) buffer p
      (if st.1 node = [] then st.2
        else output io node (st.1 node)
          (if identFlag flags = true then st.2.ident flags node else st.2)) = (f, kept))
    (hkept : kept.length ≤ maxBufferSize) :
    emitComplete io maxBufferSize flags node buffer p st =
      some (Function.update st.1 node kept, f) := by
  simp only [emitComplete, hlines, hkept, if_true]

theorem emit_ident (hident : identFlag flags = true) (hpending : newline ∉ st.1 node)
    (hl : newline ∉ l) (hbuffer : (l ++ newline :: t).length ≤ maxBufferSize) :
    ∃ f', emit io maxBufferSize flags node (l ++ newline :: t) st =
        some (Function.update st.1 node (rest newline (st.1 node ++ (l ++ newline :: t))), f') ∧
      Marks flags node (markLines flags (complete newline (st.1 node ++ (l ++ newline :: t))))
        st.2 f' := by
  obtain ⟨f', hlines, hmarks⟩ := emitLines_ident io (t := t) node hident hl
    (decide (st.1 node = [])) (if st.1 node = [] then st.2 else output io node (st.1 node)
      (if identFlag flags = true then st.2.ident flags node else st.2))
  have hpl : newline ∉ st.1 node ++ l := by simp [hpending, hl]
  obtain ⟨hcomplete, hrest⟩ := split_line (t := t) hpl
  have hlen : (rest newline t).length ≤ maxBufferSize := by
    have hall := congrArg List.length (flatten_complete_append newline t)
    simp only [List.length_append, List.length_cons] at hall hbuffer
    omega
  rw [← List.append_assoc, hcomplete, hrest]
  refine ⟨f', ?_, ?_⟩
  · rw [emit, if_pos hident, memchr_line hl]
    exact emitComplete_eq io hlines hlen
  · have hall := (marks_pending io st).trans hmarks
    by_cases hnil : st.1 node = []
    · simpa [hnil, markLines, hident] using hall
    · simpa [hnil, markLines, hident] using hall

theorem emit_plain (hident : identFlag flags = false) (ht : newline ∉ t)
    (hbuffer : (l ++ newline :: t).length ≤ maxBufferSize) :
    ∃ f', emit io maxBufferSize flags node (l ++ newline :: t) st =
        some (Function.update st.1 node (rest newline (st.1 node ++ (l ++ newline :: t))), f') ∧
      Marks flags node (markLines flags (complete newline (st.1 node ++ (l ++ newline :: t))))
        st.2 f' := by
  obtain ⟨f', hlines, hmarks⟩ := emitLines_plain io (l := l) node hident ht
    (decide (st.1 node = [])) (if st.1 node = [] then st.2 else output io node (st.1 node)
      (if identFlag flags = true then st.2.ident flags node else st.2))
  obtain ⟨hcomplete, hrest⟩ := split_last (s := st.1 node ++ l) ht
  have hlen : t.length ≤ maxBufferSize := by
    simp only [List.length_append, List.length_cons] at hbuffer
    omega
  rw [← List.append_assoc, hrest, markLines, hident, hcomplete]
  refine ⟨f', ?_, ?_⟩
  · rw [emit, hident, if_neg (by decide), memrchr_last ht]
    exact emitComplete_eq io hlines hlen
  · have hall := (marks_pending io st).trans hmarks
    by_cases hnil : st.1 node = []
    · simpa [hnil] using hall
    · simpa [hnil, hident] using hall

theorem emit_of_not_mem (hnone : newline ∉ buffer) :
    emit io maxBufferSize flags node buffer st = emitPartial io maxBufferSize node buffer st := by
  rw [emit]
  split_ifs
  · rw [memchr_of_not_mem hnone]
  · rw [memrchr_of_not_mem hnone]

/-- A chunk that completes a line or fits the buffer: the lines that are complete now are
written and the open rest is kept. -/
theorem emit_lines (flags : ℕ) (hpending : newline ∉ st.1 node)
    (hbuffer : buffer.length ≤ maxBufferSize)
    (hfits : newline ∈ buffer ∨ (st.1 node).length + buffer.length ≤ maxBufferSize) :
    ∃ f', emit io maxBufferSize flags node buffer st =
        some (Function.update st.1 node (rest newline (st.1 node ++ buffer)), f') ∧
      Marks flags node (markLines flags (complete newline (st.1 node ++ buffer))) st.2 f' := by
  by_cases hmem : newline ∈ buffer
  · cases hident : identFlag flags with
    | true =>
        obtain ⟨l, t, rfl, hl⟩ := List.eq_append_cons_of_mem hmem
        exact emit_ident io hident hpending hl hbuffer
    | false =>
        obtain ⟨l, t, rfl, ht⟩ := exists_last hmem
        exact emit_plain io hident ht hbuffer
  · have hle := hfits.resolve_left hmem
    have hnone : newline ∉ st.1 node ++ buffer := by simp [hpending, hmem]
    obtain ⟨hcomplete, hrest⟩ := split_of_not_mem hnone
    rw [emit_of_not_mem io hmem, hcomplete, hrest]
    have hover : ¬ (maxBufferSize < (st.1 node).length + buffer.length ∧ st.1 node ≠ []) :=
      fun h ↦ absurd h.1 (not_lt.mpr hle)
    have hle' : buffer.length + (st.1 node).length ≤ maxBufferSize := by omega
    refine ⟨st.2, ?_, ?_⟩
    · simp only [emitPartial, hover, decide_false, Bool.false_eq_true, if_false, hle', if_true]
    · simpa [markLines] using Marks.refl flags node st.2

/-- A chunk for which there is no room: what was pending is written as it is. -/
theorem emit_overflow (hmem : newline ∉ buffer) (hbuffer : buffer.length ≤ maxBufferSize)
    (hover : maxBufferSize < (st.1 node).length + buffer.length) :
    ∃ f', emit io maxBufferSize flags node buffer st =
        some (Function.update st.1 node buffer, f') ∧
      Marks flags node ((st.1 node).map some) st.2 f' := by
  have hne : st.1 node ≠ [] := by
    intro hnil
    simp only [hnil, List.length_nil] at hover
    omega
  refine ⟨output io node (st.1 node) st.2, ?_, .output io flags node _ _⟩
  rw [emit_of_not_mem io hmem]
  simp [emitPartial, hover, hne, hbuffer]

end Emit

/-! ## Chunks -/

/-- No stretch of the stream without a newline is longer than the buffer. -/
def ShortLines (maxBufferSize : ℕ) (s : List UInt8) : Prop :=
  ∀ l, l <:+: s → newline ∉ l → l.length ≤ maxBufferSize

/-- However a stream is cut, its complete lines are written and its open rest is kept. -/
theorem emitAll_lines (io : Stdio ω) (flags node : ℕ) {maxBufferSize : ℕ}
    {chunks : List (List UInt8)} (hchunks : ∀ c ∈ chunks, c.length ≤ maxBufferSize)
    (st : Info × Fout ω) (hpending : newline ∉ st.1 node)
    (hshort : ShortLines maxBufferSize (st.1 node ++ chunks.flatten)) :
    ∃ st', emitAll io maxBufferSize flags st (chunks.map (Prod.mk node)) = some st' ∧
      st'.1 node = rest newline (st.1 node ++ chunks.flatten) ∧
      Marks flags node (markLines flags (complete newline (st.1 node ++ chunks.flatten)))
        st.2 st'.2 := by
  induction chunks generalizing st with
  | nil =>
      obtain ⟨hcomplete, hrest⟩ := split_of_not_mem hpending
      refine ⟨st, rfl, by simp [hrest], ?_⟩
      simpa [hcomplete, markLines] using Marks.refl flags node st.2
  | cons c chunks ih =>
      obtain ⟨hc, hchunks⟩ := List.forall_mem_cons.mp hchunks
      rw [List.flatten_cons, ← List.append_assoc] at hshort ⊢
      have hfits : newline ∈ c ∨ (st.1 node).length + c.length ≤ maxBufferSize := by
        by_cases hmem : newline ∈ c
        · exact .inl hmem
        · have hle := hshort (st.1 node ++ c) (List.prefix_append ..).isInfix
            (by simp [hpending, hmem])
          exact .inr (by simpa using hle)
      obtain ⟨f', hemit, hmarks⟩ := emit_lines io flags hpending hc hfits
      obtain ⟨hcomplete, hrest⟩ :=
        split_append newline (st.1 node ++ c) chunks.flatten
      -- what is kept and what is still to come are a suffix of the stream
      have hshort' : ShortLines maxBufferSize
          (rest newline (st.1 node ++ c) ++ chunks.flatten) := by
        intro l hl
        refine hshort l (hl.trans ?_)
        have hall := flatten_complete_append newline (st.1 node ++ c)
        refine ⟨(complete newline (st.1 node ++ c)).flatten, [], ?_⟩
        rw [List.append_nil, ← List.append_assoc, hall]
      obtain ⟨st', hall, hkept, hmarks'⟩ :=
        ih hchunks (Function.update st.1 node (rest newline (st.1 node ++ c)), f')
          (by simpa using not_mem_rest _) (by simpa using hshort')
      simp only [Function.update_self] at hkept hmarks'
      refine ⟨st', ?_, by rw [hkept, hrest], ?_⟩
      · rw [emitAll, List.map_cons, List.foldlM_cons, hemit]
        exact hall
      · rw [hcomplete, markLines_append]
        exact hmarks.trans hmarks'

/-- What a file holds of the complete lines of a node. -/
def lineBytes (flags node : ℕ) (ls : List (List UInt8)) : List UInt8 :=
  if identFlag flags then ls.flatMap (identText (alternateIdentFlag flags) node ++ ·)
  else ls.flatten

theorem markLines_text (flags node : ℕ) (ls : List (List UInt8)) :
    (markLines flags ls).flatMap (markText flags node) = lineBytes flags node ls := by
  have hsome : ∀ l : List UInt8, (l.map some).flatMap (markText flags node) = l := by
    intro l
    simp [List.flatMap_map, markText]
  rw [markLines, lineBytes]
  split_ifs
  · rw [List.flatMap_assoc]
    refine List.flatMap_congr fun l _ ↦ ?_
    rw [List.flatMap_cons, hsome]
    rfl
  · exact hsome _

/-- Two ways of cutting a stream lead to the same bytes in the file and the same pending
output: the complete lines, identified if asked for, and the open rest. -/
theorem output_independent_of_chunks (io : Stdio ω) {maxBufferSize flags node : ℕ}
    {cs ds : List (List UInt8)} (hcs : ∀ c ∈ cs, c.length ≤ maxBufferSize)
    (hds : ∀ d ∈ ds, d.length ≤ maxBufferSize) (hsame : cs.flatten = ds.flatten)
    (hshort : ShortLines maxBufferSize cs.flatten) {st : Info × Fout ω}
    (hempty : st.1 node = []) :
    ∃ st₁ st₂, emitAll io maxBufferSize flags st (cs.map (Prod.mk node)) = some st₁ ∧
      emitAll io maxBufferSize flags st (ds.map (Prod.mk node)) = some st₂ ∧
      st₁.2.bytes = st₂.2.bytes ∧ st₁.1 node = st₂.1 node ∧
      st₁.2.bytes = st.2.bytes ++ lineBytes flags node (complete newline cs.flatten) ∧
      st₁.1 node = rest newline cs.flatten := by
  have hrun : ∀ es : List (List UInt8), (∀ e ∈ es, e.length ≤ maxBufferSize) →
      es.flatten = cs.flatten →
      ∃ st', emitAll io maxBufferSize flags st (es.map (Prod.mk node)) = some st' ∧
        st'.2.bytes = st.2.bytes ++ lineBytes flags node (complete newline cs.flatten) ∧
        st'.1 node = rest newline cs.flatten := by
    intro es hes hflat
    obtain ⟨st', hall, hkept, hmarks⟩ := emitAll_lines io flags node hes st
      (by simp [hempty]) (by simpa [hempty, hflat] using hshort)
    rw [hempty, List.nil_append, hflat] at hkept hmarks
    exact ⟨st', hall, by rw [hmarks.bytes_eq, markLines_text], hkept⟩
  obtain ⟨st₁, hall₁, hbytes₁, hkept₁⟩ := hrun cs hcs rfl
  obtain ⟨st₂, hall₂, hbytes₂, hkept₂⟩ := hrun ds hds hsame.symm
  exact ⟨st₁, st₂, hall₁, hall₂, hbytes₁.trans hbytes₂.symm, hkept₁.trans hkept₂.symm, hbytes₁,
    hkept₁⟩

theorem shortLines_of_length {maxBufferSize : ℕ} {s : List UInt8} (h : s.length ≤ maxBufferSize) :
    ShortLines maxBufferSize s :=
  fun _ hl _ ↦ hl.length_le.trans h

/-- "hi", a newline and "!", in three chunks and in one. -/
theorem output_independent_of_chunks_three :
    ∃ st₁ st₂, emitAll byteStdio 4 1 (start ()) ([[104], [105, 10], [33]].map (Prod.mk 7)) =
        some st₁ ∧
      emitAll byteStdio 4 1 (start ()) ([[104, 105, 10, 33]].map (Prod.mk 7)) = some st₂ ∧
      st₁.2.bytes = st₂.2.bytes ∧ st₁.2.bytes = [48, 55, 58, 104, 105, 10] ∧
      st₁.1 7 = [33] ∧ st₂.1 7 = [33] := by
  obtain ⟨st₁, st₂, h₁, h₂, hbytes, hkept, hb, hk⟩ := @output_independent_of_chunks Unit byteStdio
    4 1 7 [[104], [105, 10], [33]] [[104, 105, 10, 33]] (by decide) (by decide) rfl
    (shortLines_of_length (by decide)) (start ()) rfl
  have hrest : rest newline [104, 105, 10, 33] = [33] := by decide
  have hlines : lineBytes 1 7 (complete newline [104, 105, 10, 33]) =
      [48, 55, 58, 104, 105, 10] := by decide
  refine ⟨st₁, st₂, h₁, h₂, hbytes, ?_, hk.trans hrest, (hkept.symm.trans hk).trans hrest⟩
  rw [hb]
  exact hlines

end AxiomApps.Run.Output
