import AxiomApps.Run.LineOutput

/-!
# Identification of the output

The file is described by parts: what is written for one node without a break, with or without an
identification in front. A line of a node is one identified part, unless it was too long for the
buffer. `emit` looks at `IDENT_FLAG`, `flush` at whether any flag is set.
-/

namespace AxiomApps.Run.Output

open Lines

variable {ω : Type*}

/-- Bytes of a node's output, with or without an identification in front and the newline that
`flush` adds behind. -/
structure Part where
  node : ℕ
  ident : Bool
  bytes : List UInt8
  flushed : Bool
  deriving DecidableEq, Repr

def Part.text (flags : ℕ) (p : Part) : List UInt8 :=
  (if p.ident then identText (alternateIdentFlag flags) p.node else []) ++ p.bytes ++
    if p.flushed then [newline] else []

/-- A line of a node as it is written. If it fits the buffer, it is in one piece with one
identification in front, and `flush` adds a newline if it has none. -/
structure Identified (maxBufferSize node : ℕ) (ps : List Part) (l : List UInt8) : Prop where
  bytes : ps.flatMap Part.bytes = l
  once : (l.takeWhile (· ≠ newline)).length ≤ maxBufferSize → ps = [⟨node, true, l, newline ∉ l⟩]

/-- With `IDENT_FLAG` the file is made of the lines that the nodes have sent, each that fits the
buffer with its identification; without it no identification is written. -/
def IdentifiedAsAsked (maxBufferSize flags : ℕ) (sent : ℕ → List UInt8) (f : Fout ω) : Prop :=
  if identFlag flags then
    ∃ ps : List Part, f.bytes = ps.flatMap (Part.text flags) ∧
      ∀ k, ∃ gs : List (List Part), ps.filter (·.node = k) = gs.flatten ∧
        List.Forall₂ (Identified maxBufferSize k) gs (lines newline (sent k))
  else ∀ w ∈ f.writes, w.kind ≠ .ident

/-! ## The parts of one node -/

/-- The parts written of the output `s` of a node, with `pending` kept: the complete lines are
identified, and of the open line either nothing has been written or it is already too long. -/
def Tidy (maxBufferSize node : ℕ) (ps : List Part) (pending s : List UInt8) : Prop :=
  ∃ gs begun, ps = gs.flatten ++ begun ∧
    List.Forall₂ (Identified maxBufferSize node) gs (complete newline s) ∧
    begun.flatMap Part.bytes ++ pending = rest newline s ∧
    (begun = [] ∨ maxBufferSize < (rest newline s).length)

section Tidy

variable {maxBufferSize node : ℕ} {ps : List Part} {pending s l t : List UInt8}

theorem length_le_takeWhile (hl : newline ∉ l) (u : List UInt8) :
    l.length ≤ ((l ++ u).takeWhile (· ≠ newline)).length := by
  have hall : ∀ b ∈ l, decide (b ≠ newline) = true := by
    intro b hb
    rw [decide_eq_true_eq]
    rintro rfl
    exact hl hb
  rw [List.takeWhile_append_of_pos hall, List.length_append]
  exact Nat.le_add_right ..

/-- The last part of a line. If the line fits the buffer, it is the first part as well. -/
theorem identified_last (node : ℕ) {begun : List Part} (h : begun.flatMap Part.bytes ++ pending = l)
    (hl : newline ∉ l) (hbegun : begun = [] ∨ maxBufferSize < l.length) (u : List UInt8) :
    Identified maxBufferSize node
      (begun ++ [⟨node, true, pending ++ u, newline ∉ pending ++ u⟩]) (l ++ u) := by
  refine ⟨by simp [← h], fun hle ↦ ?_⟩
  rcases hbegun with rfl | hlt
  · simp [← h]
  · have hlong := length_le_takeWhile hl u
    omega

/-- The complete lines of a chunk, each in one part. -/
def lineParts (node : ℕ) (ls : List (List UInt8)) : List Part :=
  ls.map fun l ↦ ⟨node, true, l, false⟩

theorem identified_lineParts (t : List UInt8) :
    List.Forall₂ (Identified maxBufferSize node)
      ((complete newline t).map fun l ↦ [⟨node, true, l, false⟩]) (complete newline t) := by
  refine List.forall₂_map_left_iff.mpr (List.forall₂_same.mpr fun l hl ↦ ⟨by simp, fun _ ↦ ?_⟩)
  simp [mem_of_mem_complete hl]

theorem Tidy.not_mem_pending (h : Tidy maxBufferSize node ps pending s) : newline ∉ pending := by
  obtain ⟨gs, begun, -, -, hrest, -⟩ := h
  have hnone : newline ∉ rest newline s := not_mem_rest s
  rw [← hrest] at hnone
  exact fun hmem ↦ hnone (List.mem_append_right _ hmem)

theorem tidy_nil : Tidy maxBufferSize node [] [] [] :=
  ⟨[], [], rfl, .nil, rfl, .inl rfl⟩

theorem split_append_open (hl : newline ∉ l) :
    complete newline (s ++ l) = complete newline s ∧
      rest newline (s ++ l) = rest newline s ++ l := by
  have hopen : newline ∉ rest newline s ++ l := by simp [not_mem_rest, hl]
  obtain ⟨hnone, hall⟩ := split_of_not_mem hopen
  obtain ⟨hcomplete, hrest⟩ := split_append newline s l
  exact ⟨by rw [hcomplete, hnone, List.append_nil], by rw [hrest, hall]⟩

/-- A chunk without a newline is kept. -/
theorem Tidy.keep (h : Tidy maxBufferSize node ps pending s) (hl : newline ∉ l) :
    Tidy maxBufferSize node ps (pending ++ l) (s ++ l) := by
  obtain ⟨gs, begun, hps, hgs, hrest, hbegun⟩ := h
  obtain ⟨hcomplete, hrest'⟩ := split_append_open (s := s) hl
  refine ⟨gs, begun, hps, hcomplete ▸ hgs, ?_, hbegun.imp_right fun hlt ↦ ?_⟩
  · rw [hrest', ← hrest, List.append_assoc]
  · rw [hrest', List.length_append]
    omega

/-- The pending part of a line is written for lack of room. -/
theorem Tidy.overflow (h : Tidy maxBufferSize node ps pending s) (hl : newline ∉ l)
    (hover : maxBufferSize < pending.length + l.length) :
    Tidy maxBufferSize node (ps ++ [⟨node, false, pending, false⟩]) l (s ++ l) := by
  obtain ⟨gs, begun, hps, hgs, hrest, -⟩ := h
  obtain ⟨hcomplete, hrest'⟩ := split_append_open (s := s) hl
  refine ⟨gs, begun ++ [⟨node, false, pending, false⟩], ?_, hcomplete ▸ hgs, ?_, .inr ?_⟩
  · rw [hps, List.append_assoc]
  · simp [hrest', ← hrest]
  · rw [hrest', ← hrest, List.length_append, List.length_append]
    omega

/-- A chunk that completes the open line. -/
theorem Tidy.line (h : Tidy maxBufferSize node ps pending s) (hl : newline ∉ l) :
    Tidy maxBufferSize node
      (ps ++ lineParts node (complete newline (pending ++ (l ++ newline :: t))))
      (rest newline (pending ++ (l ++ newline :: t))) (s ++ (l ++ newline :: t)) := by
  have hpending : newline ∉ pending ++ l := by simp [h.not_mem_pending, hl]
  obtain ⟨gs, begun, hps, hgs, hrest, hbegun⟩ := h
  have hopen : newline ∉ rest newline s ++ l := by simp [not_mem_rest, hl]
  obtain ⟨hcomplete, hrest'⟩ := split_line (t := t) hpending
  obtain ⟨hcomplete₁, hrest₁⟩ := split_line (t := t) hopen
  rw [List.append_assoc] at hcomplete hrest' hcomplete₁ hrest₁
  obtain ⟨hcomplete₂, hrest₂⟩ := split_append newline s (l ++ newline :: t)
  rw [hcomplete, hrest']
  have hlast : Identified maxBufferSize node
      (begun ++ [⟨node, true, pending ++ l ++ [newline], false⟩])
      (rest newline s ++ l ++ [newline]) := by
    have hlast' := identified_last node hrest (not_mem_rest s) hbegun (l ++ [newline])
    simpa using hlast'
  refine ⟨gs ++ (begun ++ [⟨node, true, pending ++ l ++ [newline], false⟩]) ::
    (complete newline t).map (fun l ↦ [⟨node, true, l, false⟩]), [], ?_, ?_, ?_, .inl rfl⟩
  · simp [hps, lineParts, ← List.flatMap_def, ← List.map_eq_flatMap]
  · rw [hcomplete₂, hcomplete₁]
    exact List.rel_append hgs (.cons hlast (identified_lineParts t))
  · rw [hrest₂, hrest₁]
    rfl

theorem Tidy.pending_eq_nil (h : Tidy maxBufferSize node ps pending s) (hs : s = []) :
    pending = [] := by
  obtain ⟨gs, begun, -, -, hrest, -⟩ := h
  rw [hs] at hrest
  exact (List.append_eq_nil_iff.mp hrest).2

/-- What `flush` writes of a node's pending output. -/
def flushParts (node : ℕ) (pending : List UInt8) : List Part :=
  if pending = [] then [] else [⟨node, true, pending, true⟩]

/-- At the end the open line is written, identified. -/
theorem Tidy.flush (h : Tidy maxBufferSize node ps pending s) :
    ∃ gs, ps ++ flushParts node pending = gs.flatten ∧
      List.Forall₂ (Identified maxBufferSize node) gs (lines newline s) := by
  have hpending := h.not_mem_pending
  obtain ⟨gs, begun, hps, hgs, hrest, hbegun⟩ := h
  have hopen : newline ∉ rest newline s := not_mem_rest s
  rw [lines, flushParts]
  by_cases hnil : rest newline s = []
  · rw [hnil, List.append_eq_nil_iff] at hrest
    have hnone : begun = [] := hbegun.resolve_right (by simp [hnil])
    exact ⟨gs, by simp [hps, hnone, hrest.2], by simpa [hnil] using hgs⟩
  · rw [if_neg hnil]
    by_cases hkept : pending = []
    · -- the line was too long, and all of it has been written
      refine ⟨gs ++ [begun], by simp [hps, hkept], List.rel_append hgs (.cons ?_ .nil)⟩
      rw [hkept, List.append_nil] at hrest
      refine ⟨hrest, fun hle ↦ ?_⟩
      have hlt : maxBufferSize < (rest newline s).length := hbegun.resolve_left fun hbegun ↦ by
        rw [hbegun, List.flatMap_nil] at hrest
        exact hnil hrest.symm
      have hlong := length_le_takeWhile hopen []
      rw [List.append_nil] at hlong
      omega
    · refine ⟨gs ++ [begun ++ [⟨node, true, pending, true⟩]], by simp [hps, hkept],
        List.rel_append hgs (.cons ?_ .nil)⟩
      have hlast := identified_last node hrest hopen hbegun []
      simpa [hpending] using hlast

end Tidy

/-! ## The file -/

/-- Identifications are written only if they are asked for. -/
def Idents (flags : ℕ) (f : Fout ω) : Prop :=
  ∀ w ∈ f.writes, w.kind = .ident → identFlag flags = true

section File

variable {maxBufferSize flags node : ℕ} {ms : List (Option UInt8)} {f f' : Fout ω}

theorem Marks.idents (h : Marks flags node ms f f') (hms : none ∈ ms → identFlag flags = true)
    (hf : Idents flags f) : Idents flags f' := by
  obtain ⟨ws, hws, rfl, -⟩ := h
  intro w hw hkind
  rw [hws] at hw
  rcases List.mem_append.mp hw with hw | hw
  · exact hf w hw hkind
  · exact hms (List.mem_flatMap.mpr ⟨w, hw, by simp [Write.marks, hkind]⟩)

theorem Idents.put_newline (hf : Idents flags f) (node : ℕ) (bs : List UInt8) :
    Idents flags (f.put node .newline bs) := by
  intro w hw hkind
  rcases List.mem_append.mp hw with hw | hw
  · exact hf w hw hkind
  · rw [List.mem_singleton.mp hw] at hkind
    cases hkind

/-! ### The end of the run -/

/-- The marks that `flush` writes of a node's pending output. -/
def flushMarks (flags : ℕ) (pending : List UInt8) : List (Option UInt8) :=
  (if flags ≠ 0 then [none] else []) ++ pending.map some

theorem flushNode_cases (io : Stdio ω) (flags : ℕ) (st : Info × Fout ω) (node : ℕ) :
    (st.1 node = [] ∧ flushNode io flags st node = st) ∨
      (st.1 node ≠ [] ∧ ∃ f', Marks flags node (flushMarks flags (st.1 node)) st.2 f' ∧
        flushNode io flags st node =
          (Function.update st.1 node [], f'.put node .newline [newline])) := by
  rw [flushNode, flushMarks]
  by_cases hnil : st.1 node = []
  · exact .inl ⟨hnil, if_pos hnil⟩
  · refine .inr ⟨hnil, ?_⟩
    rw [if_neg hnil]
    split_ifs with hflags
    · exact ⟨_, (Marks.ident flags node st.2).trans (.output io flags node _ _), rfl⟩
    · exact ⟨_, (Marks.refl flags node st.2).trans (.output io flags node _ _), rfl⟩

theorem flush_succ (io : Stdio ω) (flags n : ℕ) (st : Info × Fout ω) :
    flush io flags (n + 1) st = flushNode io flags (flush io flags n st) n := by
  simp [flush, List.range_succ]

theorem flush_kept (io : Stdio ω) (flags n : ℕ) (st : Info × Fout ω) {k : ℕ} (hk : n ≤ k) :
    (flush io flags n st).1 k = st.1 k := by
  induction n with
  | zero => rfl
  | succ n ih =>
      rw [flush_succ]
      obtain ⟨-, heq⟩ | ⟨-, f', -, heq⟩ := flushNode_cases io flags (flush io flags n st) n
      · rw [heq, ih (Nat.le_of_succ_le hk)]
      · rw [heq, ← ih (Nat.le_of_succ_le hk)]
        exact Function.update_of_ne (Nat.ne_of_gt hk) _ _

/-- With some flag set `flush` identifies all that it writes. -/
theorem flush_bytes (io : Stdio ω) (hflags : flags ≠ 0) (n : ℕ) (st : Info × Fout ω) :
    (flush io flags n st).2.bytes = st.2.bytes ++
      ((List.range n).flatMap fun k ↦ flushParts k (st.1 k)).flatMap (Part.text flags) := by
  induction n with
  | zero => simp [flush]
  | succ n ih =>
      have hkept := flush_kept io flags n st le_rfl
      rw [flush_succ, List.range_succ]
      obtain ⟨hnil, heq⟩ | ⟨hnil, f', hmarks, heq⟩ :=
        flushNode_cases io flags (flush io flags n st) n
      · rw [hkept] at hnil
        simp [heq, ih, flushParts, hnil]
      · rw [hkept] at hnil hmarks
        have hput : (f'.put n .newline [newline]).bytes = f'.bytes ++ [newline] := by
          simp [Fout.bytes, Fout.put]
        rw [heq, hput, hmarks.bytes_eq, ih]
        simp [flushParts, flushMarks, hnil, hflags, Part.text, markText, List.flatMap_map]

theorem flush_idents (io : Stdio ω) (n : ℕ) (hflags : flags ≠ 0 → identFlag flags = true)
    {st : Info × Fout ω} (hst : Idents flags st.2) : Idents flags (flush io flags n st).2 := by
  induction n with
  | zero => exact hst
  | succ n ih =>
      rw [flush_succ]
      obtain ⟨-, heq⟩ | ⟨-, f', hmarks, heq⟩ := flushNode_cases io flags (flush io flags n st) n
      · rwa [heq]
      · rw [heq]
        refine (hmarks.idents (fun hmem ↦ hflags fun hzero ↦ ?_) ih).put_newline n _
        simp [flushMarks, hzero] at hmem

/-- With some flag set a node with pending output is identified. -/
theorem exists_ident_of_flush (io : Stdio ω) (hflags : flags ≠ 0) {n k : ℕ} (hk : k < n)
    (st : Info × Fout ω) (hne : st.1 k ≠ []) :
    ∃ w ∈ (flush io flags n st).2.writes, w.kind = .ident := by
  induction n with
  | zero => exact absurd hk (Nat.not_lt_zero k)
  | succ n ih =>
      rw [flush_succ]
      obtain ⟨hnil, heq⟩ | ⟨-, f', ⟨ws, hws, hms, -⟩, heq⟩ :=
        flushNode_cases io flags (flush io flags n st) n
      · rw [heq]
        refine ih (lt_of_le_of_ne (Nat.le_of_lt_succ hk) ?_)
        rintro rfl
        exact hne (flush_kept io flags k st le_rfl ▸ hnil)
      · rw [heq]
        have hnone : none ∈ ws.flatMap Write.marks := by simp [hms, flushMarks, hflags]
        obtain ⟨w, hw, hmem⟩ := List.mem_flatMap.mp hnone
        refine ⟨w, by simp [Fout.put, hws, hw], ?_⟩
        rw [Write.marks] at hmem
        split at hmem
        · assumption
        · simp at hmem
        · simp at hmem

/-! ### Runs -/

theorem none_mem_markLines {ls : List (List UInt8)} (h : none ∈ markLines flags ls) :
    identFlag flags = true := by
  by_contra hident
  simp [markLines, hident] at h

theorem lineParts_text (hident : identFlag flags = true) (ls : List (List UInt8)) :
    (markLines flags ls).flatMap (markText flags node) =
      (lineParts node ls).flatMap (Part.text flags) := by
  rw [markLines_text, lineBytes, if_pos hident, lineParts, List.flatMap_map]
  simp [Part.text]

/-- One `emit`, whether it completes a line, finds room or does not: its parts. -/
theorem emit_parts (io : Stdio ω) (flags : ℕ) {buffer : List UInt8} {st : Info × Fout ω}
    (hpending : newline ∉ st.1 node) (hbuffer : buffer.length ≤ maxBufferSize) :
    ∃ kept f' ms qs, emit io maxBufferSize flags node buffer st =
        some (Function.update st.1 node kept, f') ∧
      Marks flags node ms st.2 f' ∧ newline ∉ kept ∧ (none ∈ ms → identFlag flags = true) ∧
      (∀ q ∈ qs, q.node = node) ∧
      (identFlag flags = true →
        ms.flatMap (markText flags node) = qs.flatMap (Part.text flags) ∧
        ∀ ps s, Tidy maxBufferSize node ps (st.1 node) s →
          Tidy maxBufferSize node (ps ++ qs) kept (s ++ buffer)) := by
  by_cases hfits : newline ∈ buffer ∨ (st.1 node).length + buffer.length ≤ maxBufferSize
  · obtain ⟨f', hemit, hmarks⟩ := emit_lines io flags hpending hbuffer hfits
    refine ⟨_, f', _, lineParts node (complete newline (st.1 node ++ buffer)), hemit, hmarks,
      not_mem_rest _, none_mem_markLines, by simp [lineParts],
      fun hident ↦ ⟨lineParts_text hident _, fun ps s h ↦ ?_⟩⟩
    rcases cases_line newline buffer with hmem | ⟨l, t, rfl, hl⟩
    · have hnone : newline ∉ st.1 node ++ buffer := by simp [hpending, hmem]
      obtain ⟨hcomplete, hrest⟩ := split_of_not_mem hnone
      rw [hcomplete, hrest, lineParts, List.map_nil, List.append_nil]
      exact h.keep hmem
    · exact h.line hl
  · obtain ⟨hmem, hover⟩ := not_or.mp hfits
    have hlt : maxBufferSize < (st.1 node).length + buffer.length := not_le.mp hover
    obtain ⟨f', hemit, hmarks⟩ := @emit_overflow _ io _ flags _ _ _ hmem hbuffer hlt
    refine ⟨buffer, f', _, [⟨node, false, st.1 node, false⟩], hemit, hmarks, hmem, by simp,
      by simp, fun _ ↦ ⟨?_, fun ps s h ↦ h.overflow hmem hlt⟩⟩
    simp [Part.text, markText, List.flatMap_map]

/-- What holds between two calls of `emit`, after the nodes have sent `sent`. -/
structure Steady (maxBufferSize flags : ℕ) (sent : ℕ → List UInt8) (st : Info × Fout ω) :
    Prop where
  pending : ∀ k, newline ∉ st.1 k
  idents : Idents flags st.2
  parts : identFlag flags = true → ∃ ps : List Part,
    st.2.bytes = ps.flatMap (Part.text flags) ∧
    ∀ k, Tidy maxBufferSize k (ps.filter (·.node = k)) (st.1 k) (sent k)

theorem steady_start (w : ω) : Steady maxBufferSize flags (fun _ ↦ []) (start w) where
  pending := by simp [start]
  idents := by simp [start, Idents]
  parts _ := ⟨[], rfl, fun _ ↦ tidy_nil⟩

theorem Steady.emit (io : Stdio ω) {sent : ℕ → List UInt8} {buffer : List UInt8}
    {st : Info × Fout ω} (h : Steady maxBufferSize flags sent st)
    (hbuffer : buffer.length ≤ maxBufferSize) (node : ℕ) :
    ∃ st', emit io maxBufferSize flags node buffer st = some st' ∧
      Steady maxBufferSize flags (fun k ↦ sent k ++ if node = k then buffer else []) st' := by
  obtain ⟨kept, f', ms, qs, hemit, hmarks, hkept, hnone, hnode, hparts⟩ :=
    emit_parts io flags (h.pending node) hbuffer
  refine ⟨_, hemit, fun k ↦ ?_, hmarks.idents hnone h.idents, fun hident ↦ ?_⟩
  · by_cases hk : k = node
    · simpa [hk] using hkept
    · simpa [hk] using h.pending k
  · obtain ⟨htext, htidy⟩ := hparts hident
    obtain ⟨ps, hbytes, hps⟩ := h.parts hident
    refine ⟨ps ++ qs, by rw [hmarks.bytes_eq, hbytes, htext, List.flatMap_append], fun k ↦ ?_⟩
    rw [List.filter_append]
    by_cases hk : k = node
    · subst hk
      have hqs : qs.filter (·.node = k) = qs :=
        List.filter_eq_self.mpr fun q hq ↦ decide_eq_true (hnode q hq)
      simpa [hqs] using htidy _ _ (hps k)
    · have hqs : qs.filter (·.node = k) = [] :=
        List.filter_eq_nil_iff.mpr fun q hq ↦ by simpa [hnode q hq] using Ne.symm hk
      simpa [hqs, hk, Ne.symm hk] using hps k

theorem Steady.emitAll (io : Stdio ω) {sent : ℕ → List UInt8} {chunks : List (ℕ × List UInt8)}
    {st : Info × Fout ω} (h : Steady maxBufferSize flags sent st)
    (hchunks : ∀ c ∈ chunks, c.2.length ≤ maxBufferSize) :
    ∃ st', emitAll io maxBufferSize flags st chunks = some st' ∧
      Steady maxBufferSize flags (fun k ↦ sent k ++ stream chunks k) st' := by
  induction chunks generalizing sent st with
  | nil => exact ⟨st, rfl, by simpa [stream] using h⟩
  | cons c chunks ih =>
      obtain ⟨hc, hchunks⟩ := List.forall_mem_cons.mp hchunks
      obtain ⟨st₁, hemit, hst₁⟩ := h.emit io hc c.1
      obtain ⟨st₂, hall, hst₂⟩ := ih hst₁ hchunks
      refine ⟨st₂, ?_, ?_⟩
      · rw [Output.emitAll, List.foldlM_cons, hemit]
        exact hall
      · have hstream : ∀ k, stream (c :: chunks) k =
            (if c.1 = k then c.2 else []) ++ stream chunks k := by
          intro k
          by_cases hk : c.1 = k <;> simp [stream, hk]
        simpa only [hstream, List.append_assoc] using hst₂

theorem filter_flushParts (pending : Info) (n k : ℕ) :
    ((List.range n).flatMap fun j ↦ flushParts j (pending j)).filter (·.node = k) =
      if k < n then flushParts k (pending k) else [] := by
  induction n with
  | zero => simp
  | succ n ih =>
      have hself : (flushParts n (pending n)).filter (·.node = k) =
          if k = n then flushParts k (pending k) else [] := by
        by_cases hk : k = n
        · subst hk
          simp only [flushParts]
          split_ifs <;> simp
        · simp only [flushParts]
          split_ifs <;> simp [Ne.symm hk]
      rw [List.range_succ, List.flatMap_append, List.filter_append, ih, List.flatMap_singleton,
        hself]
      rcases lt_trichotomy k n with hk | rfl | hk
      · simp [hk, hk.ne, Nat.lt_succ_of_lt hk]
      · simp
      · simp [hk.le, hk.ne', Nat.succ_le_of_lt hk, not_lt.mpr]

theorem Steady.flush (io : Stdio ω) {sent : ℕ → List UInt8} {st : Info × Fout ω}
    (h : Steady maxBufferSize flags sent st) (hsent : ∀ k, maxNumNodes ≤ k → sent k = [])
    (hflags : identFlag flags = true ∨ flags = 0) :
    IdentifiedAsAsked maxBufferSize flags sent (flush io flags maxNumNodes st).2 := by
  rw [IdentifiedAsAsked]
  split_ifs with hident
  · have hne : flags ≠ 0 := by
      rintro rfl
      simp [identFlag] at hident
    obtain ⟨ps, hbytes, hps⟩ := h.parts hident
    refine ⟨ps ++ (List.range maxNumNodes).flatMap fun k ↦ flushParts k (st.1 k), ?_, fun k ↦ ?_⟩
    · rw [flush_bytes io hne, hbytes, List.flatMap_append]
    · obtain ⟨gs, hgs, hlines⟩ := (hps k).flush
      refine ⟨gs, ?_, hlines⟩
      rw [List.filter_append, filter_flushParts, ← hgs]
      split_ifs with hk
      · rfl
      · have hpending := (hps k).pending_eq_nil (hsent k (not_lt.mp hk))
        rw [hpending, flushParts, if_pos rfl]
  · have hidents := flush_idents io maxNumNodes hflags.resolve_right h.idents
    exact fun w hw hkind ↦ hident (hidents w hw hkind)

end File

theorem stream_eq_nil {n k : ℕ} {chunks : List (ℕ × List UInt8)} (hchunks : ∀ c ∈ chunks, c.1 < n)
    (hk : n ≤ k) : stream chunks k = [] := by
  refine List.flatten_eq_nil_iff.mpr fun bs hbs ↦ ?_
  obtain ⟨c, hc, rfl⟩ := List.mem_map.mp hbs
  obtain ⟨hmem, hnode⟩ := List.mem_filter.mp hc
  have hlt := hchunks c hmem
  rw [decide_eq_true_eq] at hnode
  omega

/-- Each line that the nodes send has one identification right in front of it as asked for,
whatever they send, just when `IDENT_FLAG` is the reason for any flag to be set: without it a flag
of `-E` or of a profile makes `flush` identify the nodes whose last line has no newline. -/
theorem identified_iff (io : Stdio ω) (w : ω) {maxBufferSize : ℕ} (hsize : 0 < maxBufferSize)
    (flags : ℕ) :
    (∀ chunks : List (ℕ × List UInt8),
      (∀ c ∈ chunks, c.1 < maxNumNodes ∧ c.2.length ≤ maxBufferSize) →
      ∃ st, emitAll io maxBufferSize flags (start w) chunks = some st ∧
        IdentifiedAsAsked maxBufferSize flags (stream chunks)
          (flush io flags maxNumNodes st).2) ↔
      identFlag flags = true ∨ flags = 0 := by
  constructor
  · intro h
    by_contra hflags
    obtain ⟨hident, hne⟩ := not_or.mp hflags
    -- node 0 sends one byte and no newline
    have hone : 1 ≤ maxBufferSize := hsize
    have hlen : ∀ c ∈ [[(97 : UInt8)]], c.length ≤ maxBufferSize := by simpa using hone
    obtain ⟨st', hall', hkept, -⟩ := emitAll_lines io flags 0 hlen (start w) (by simp [start])
      (shortLines_of_length (by simpa [start] using hone))
    obtain ⟨st, hall, hasked⟩ := h [(0, [97])] (by simpa [maxNumNodes] using hone)
    obtain rfl : st' = st := Option.some.inj (hall'.symm.trans hall)
    have hopen : rest newline [(97 : UInt8)] = [97] := by decide
    have hpending : st'.1 0 = [97] := hkept.trans hopen
    rw [IdentifiedAsAsked, if_neg hident] at hasked
    obtain ⟨v, hv, hkind⟩ := exists_ident_of_flush io hne (by decide : 0 < maxNumNodes)
      st' (by simp [hpending])
    exact hasked v hv hkind
  · intro hflags chunks hchunks
    obtain ⟨st, hall, hst⟩ := (steady_start w).emitAll io fun c hc ↦ (hchunks c hc).2
    refine ⟨st, hall, hst.flush io (fun k hk ↦ ?_) hflags⟩
    exact stream_eq_nil (fun c hc ↦ (hchunks c hc).1) hk

/-- With `-i`, "hi" and no newline. -/
theorem identified_partial_line :
    IdentifiedAsAsked 4 1 (stream [(0, [104, 105])]) (flush byteStdio 1 maxNumNodes
      (Function.update (fun _ ↦ []) 0 [104, 105], ⟨(), []⟩)).2 := by
  obtain ⟨st, hall, hasked⟩ := (identified_iff byteStdio () (by decide : 0 < 4) 1).mpr
    (.inl (by decide)) [(0, [104, 105])] (by decide)
  have hst : emitAll byteStdio 4 1 (start ()) [(0, [104, 105])] =
      some (Function.update (fun _ ↦ []) 0 [104, 105], ⟨(), []⟩) := rfl
  obtain rfl := Option.some.inj (hst.symm.trans hall)
  exact hasked

/-- With `-E 1` and not `-i`, "a" and no newline: `flush` writes "00:" in front of the byte. -/
theorem exitmode_identifies :
    flagsOfOptions [.exitmode 1] = some 4 ∧ identFlag 4 = false ∧
    emitAll byteStdio 4 4 (start ()) [(0, [97])] =
      some (Function.update (fun _ ↦ []) 0 [97], ⟨(), []⟩) ∧
    (flush byteStdio 4 maxNumNodes
      (Function.update (fun _ ↦ []) 0 [97], ⟨(), []⟩)).2.bytes = [48, 48, 58, 97, newline] ∧
    ¬ IdentifiedAsAsked 4 4 (stream [(0, [97])]) (flush byteStdio 4 maxNumNodes
      (Function.update (fun _ ↦ []) 0 [97], ⟨(), []⟩)).2 := by
  refine ⟨by decide, by decide, rfl, ?_, fun hasked ↦ ?_⟩
  · rw [flush_bytes byteStdio (by decide)]
    decide
  · rw [IdentifiedAsAsked, if_neg (by decide)] at hasked
    obtain ⟨w, hw, hkind⟩ := exists_ident_of_flush byteStdio (by decide : 4 ≠ 0)
      (by decide : 0 < maxNumNodes) (Function.update (fun _ ↦ []) 0 [97], ⟨(), []⟩) (by decide)
    exact hasked w hw hkind

end AxiomApps.Run.Output
