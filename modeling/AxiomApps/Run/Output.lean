import AxiomApps.Run.Options

/-!
# Redirected output

The master receives the output of the children in chunks and writes it line by line. What
follows the last newline of a node is kept in a buffer of the node until its line is
complete, the buffer would overflow, or the run ends. Every write is recorded with the node
it is made for, so that the bytes of a node can be told from identification and from the
newlines `flush` adds.
-/

namespace AxiomApps.Run.Output

/-- The C library's `fwrite`: it writes a first part of what it is given, not nothing. -/
structure Stdio (ω : Type*) where
  fwrite : ω → List UInt8 → ω × ℕ
  pos : ∀ w bs, bs ≠ [] → 0 < (fwrite w bs).2
  le : ∀ w bs, (fwrite w bs).2 ≤ bs.length

inductive Kind
  | ident
  | data
  | newline
  deriving DecidableEq, Repr

structure Write where
  node : ℕ
  kind : Kind
  bytes : List UInt8
  deriving DecidableEq, Repr

/-- The file: the library's state and what has been written. -/
structure Fout (ω : Type*) where
  world : ω
  writes : List Write

def maxNumNodes : ℕ := 63

def newline : UInt8 := 10

def identFlag (flags : ℕ) : Bool := flags &&& identBit ≠ 0

def alternateIdentFlag (flags : ℕ) : Bool := flags &&& alternateIdentBit ≠ 0

/-- `%02d` -/
def twoDigits (n : ℕ) : List UInt8 :=
  (if n < 10 then [48] else []) ++ (Nat.toDigits 10 n).map fun c ↦ c.toNat.toUInt8

/-- The identification of a node, between braces or followed by a colon. -/
def identText (alternate : Bool) (node : ℕ) : List UInt8 :=
  if alternate then [123] ++ twoDigits node ++ [125] else twoDigits node ++ [58]

/-- The pending output of each node: `info[node].buffer` up to `info[node].sz`. -/
abbrev Info := ℕ → List UInt8

variable {ω : Type*}

namespace Fout

def put (f : Fout ω) (node : ℕ) (kind : Kind) (bytes : List UInt8) : Fout ω :=
  { f with writes := f.writes ++ [⟨node, kind, bytes⟩] }

def ident (f : Fout ω) (flags node : ℕ) : Fout ω :=
  f.put node .ident (identText (alternateIdentFlag flags) node)

def data (f : Fout ω) (node : ℕ) : List UInt8 :=
  (f.writes.filter fun w ↦ w.node = node ∧ w.kind = .data).flatMap Write.bytes

end Fout

def output (io : Stdio ω) (node : ℕ) (bs : List UInt8) (f : Fout ω) : Fout ω :=
  if bs = [] then f
  else
    let r := io.fwrite f.world bs
    if r.2 = 0 then { f with world := r.1 }
    else output io node (bs.drop r.2) { f.put node .data (bs.take r.2) with world := r.1 }
termination_by bs.length
decreasing_by
  rename_i hne hzero
  have hpos := List.length_pos_of_ne_nil hne
  have hr : (io.fwrite f.world bs).2 ≠ 0 := hzero
  simp only [List.length_drop]
  omega

def memchr (bs : List UInt8) : Option ℕ :=
  bs.findIdx? (· = newline)

def memrchr (bs : List UInt8) : Option ℕ :=
  (bs.reverse.findIdx? (· = newline)).map fun i ↦ bs.length - 1 - i

/-- The loop of `emit`: write up to the newline at `p`, then on to the next one. It returns
what is left after the last. -/
def emitLines (io : Stdio ω) (flags node : ℕ) (noStopEmit : Bool) (bs : List UInt8) (p : ℕ)
    (f : Fout ω) : Fout ω × List UInt8 :=
  let f := if identFlag flags && noStopEmit then f.ident flags node else f
  let f := output io node (bs.take (p + 1)) f
  match h : memchr (bs.drop (p + 1)) with
  | none => (f, bs.drop (p + 1))
  | some q => emitLines io flags node true (bs.drop (p + 1)) q f
termination_by bs.length
decreasing_by
  have hne : bs.drop (p + 1) ≠ [] := by
    intro hnil
    simp [hnil, memchr] at h
  have hpos := List.length_pos_of_ne_nil hne
  simp only [List.length_drop] at hpos ⊢
  omega

/-- `emit` on a chunk that completes a line: the pending output, the complete lines, and the
rest becomes pending. The result is `none` when the assertion on the buffer fails. -/
def emitComplete (io : Stdio ω) (maxBufferSize flags node : ℕ) (buffer : List UInt8) (p : ℕ)
    (st : Info × Fout ω) : Option (Info × Fout ω) :=
  let pending := st.1 node
  let flushed :=
    if pending = [] then st.2
    else output io node pending (if identFlag flags then st.2.ident flags node else st.2)
  let r := emitLines io flags node (pending = []) buffer p flushed
  if r.2.length ≤ maxBufferSize then some (Function.update st.1 node r.2, r.1) else none

/-- `emit` on a chunk without a newline: it joins the pending output, which is written first
if there is no room for both. The result is `none` when the assertion fails. -/
def emitPartial (io : Stdio ω) (maxBufferSize node : ℕ) (buffer : List UInt8)
    (st : Info × Fout ω) : Option (Info × Fout ω) :=
  let pending := st.1 node
  let overflow : Bool := maxBufferSize < pending.length + buffer.length ∧ pending ≠ []
  let f := if overflow then output io node pending st.2 else st.2
  let kept := if overflow then [] else pending
  if buffer.length + kept.length ≤ maxBufferSize then
    some (Function.update st.1 node (kept ++ buffer), f)
  else none

def emit (io : Stdio ω) (maxBufferSize flags node : ℕ) (buffer : List UInt8)
    (st : Info × Fout ω) : Option (Info × Fout ω) :=
  match (if identFlag flags then memchr buffer else memrchr buffer) with
  | some p => emitComplete io maxBufferSize flags node buffer p st
  | none => emitPartial io maxBufferSize node buffer st

/-- `flush` for one node. It identifies the node whatever flag is set. -/
def flushNode (io : Stdio ω) (flags : ℕ) (st : Info × Fout ω) (node : ℕ) : Info × Fout ω :=
  if st.1 node = [] then st
  else
    let f := if flags ≠ 0 then st.2.ident flags node else st.2
    let f := output io node (st.1 node) f
    (Function.update st.1 node [], f.put node .newline [newline])

def flush (io : Stdio ω) (flags numNodes : ℕ) (st : Info × Fout ω) : Info × Fout ω :=
  (List.range numNodes).foldl (flushNode io flags) st

/-- The chunks of output the master receives, in order, each with its node. -/
def emitAll (io : Stdio ω) (maxBufferSize flags : ℕ) (st : Info × Fout ω)
    (chunks : List (ℕ × List UInt8)) : Option (Info × Fout ω) :=
  chunks.foldlM (fun st c ↦ emit io maxBufferSize flags c.1 c.2 st) st

def start (w : ω) : Info × Fout ω := (fun _ ↦ [], ⟨w, []⟩)

/-! ## What is written of the output of a node -/

/-- From `f` to `f'` the bytes `bs` of the output of `node` are written, and none of any
other node. -/
def Appends (node : ℕ) (bs : List UInt8) (f f' : Fout ω) : Prop :=
  ∀ k, f'.data k = f.data k ++ if k = node then bs else []

namespace Appends

variable {node : ℕ} {bs cs : List UInt8} {f f' f'' : Fout ω}

theorem refl (node : ℕ) (f : Fout ω) : Appends node [] f f := by
  intro k
  simp

theorem trans (h : Appends node bs f f') (h' : Appends node cs f' f'') :
    Appends node (bs ++ cs) f f'' := by
  intro k
  rw [h' k, h k, List.append_assoc]
  split <;> simp

theorem put_data (node : ℕ) (bs : List UInt8) (f : Fout ω) (w : ω) :
    Appends node bs f { f.put node .data bs with world := w } := by
  intro k
  by_cases hk : k = node
  · simp [Fout.data, Fout.put, hk]
  · simp [Fout.data, Fout.put, hk, Ne.symm hk]

theorem put_of_ne {kind : Kind} (hkind : kind ≠ .data) (node : ℕ) (bs : List UInt8) (f : Fout ω) :
    Appends node [] f (f.put node kind bs) := by
  intro k
  simp [Fout.data, Fout.put, hkind]

theorem ident (flags node : ℕ) (f : Fout ω) : Appends node [] f (f.ident flags node) :=
  put_of_ne (by decide) node _ f

theorem ident_ite (p : Prop) [Decidable p] (flags node : ℕ) (f : Fout ω) :
    Appends node [] f (if p then f.ident flags node else f) := by
  split
  · exact ident flags node f
  · exact refl node f

/-- `output` writes all it is given, in as many parts as it takes. -/
theorem output (io : Stdio ω) (node : ℕ) (bs : List UInt8) (f : Fout ω) :
    Appends node bs f (output io node bs f) := by
  fun_induction Output.output io node bs f with
  | case1 f => exact refl node f
  | case2 bs f hne r hzero => exact absurd hzero (io.pos f.world bs hne).ne'
  | case3 bs f hne r hpos ih =>
      have h := (put_data node (bs.take r.2) f r.1).trans ih
      rwa [List.take_append_drop] at h

/-- The loop writes complete lines and leaves the rest. -/
theorem emitLines (io : Stdio ω) (flags node : ℕ) (noStopEmit : Bool) (bs : List UInt8) (p : ℕ)
    (f : Fout ω) : ∃ lines, Appends node lines f (emitLines io flags node noStopEmit bs p f).1 ∧
      lines ++ (Output.emitLines io flags node noStopEmit bs p f).2 = bs := by
  fun_induction Output.emitLines io flags node noStopEmit bs p f with
  | case1 noStopEmit bs p f f₁ f₂ hnone =>
      refine ⟨bs.take (p + 1), ?_, List.take_append_drop ..⟩
      exact (ident_ite _ flags node f).trans (output io node _ f₁)
  | case2 noStopEmit bs p f f₁ f₂ q hsome ih =>
      obtain ⟨lines, hlines, hrest⟩ := ih
      refine ⟨bs.take (p + 1) ++ lines, ?_, ?_⟩
      · exact ((ident_ite _ flags node f).trans (output io node _ f₁)).trans hlines
      · rw [List.append_assoc, hrest, List.take_append_drop]

end Appends

/-- The result of an `emit` for `node`: its assertion held, and the bytes written, followed
by those kept, are the bytes kept before, followed by the chunk. -/
def Emitted (maxBufferSize node : ℕ) (buffer : List UInt8) (st : Info × Fout ω)
    (result : Option (Info × Fout ω)) : Prop :=
  ∃ rest f', result = some (Function.update st.1 node rest, f') ∧ rest.length ≤ maxBufferSize ∧
    ∃ bs, Appends node bs st.2 f' ∧ bs ++ rest = st.1 node ++ buffer

section Emit

variable (io : Stdio ω) {maxBufferSize flags node : ℕ} {buffer : List UInt8}
  {st : Info × Fout ω}

theorem emitComplete_spec (hbuffer : buffer.length ≤ maxBufferSize) (p : ℕ) :
    Emitted maxBufferSize node buffer st
      (emitComplete io maxBufferSize flags node buffer p st) := by
  have hflushed : Appends node (st.1 node) st.2 (if st.1 node = [] then st.2 else
      output io node (st.1 node)
        (if identFlag flags = true then st.2.ident flags node else st.2)) := by
    split
    · next hnil =>
        rw [hnil]
        exact .refl node _
    · exact (Appends.ident_ite _ flags node st.2).trans (.output io node _ _)
  simp only [emitComplete]
  generalize (if st.1 node = [] then st.2 else output io node (st.1 node)
    (if identFlag flags = true then st.2.ident flags node else st.2)) = f at hflushed ⊢
  obtain ⟨lines, hlines, hrest⟩ :=
    Appends.emitLines io flags node (decide (st.1 node = [])) buffer p f
  generalize emitLines io flags node (decide (st.1 node = [])) buffer p f = r at hlines hrest ⊢
  have hle : r.2.length ≤ maxBufferSize := by
    have hlen := congrArg List.length hrest
    simp only [List.length_append] at hlen
    omega
  refine ⟨r.2, r.1, if_pos hle, hle, st.1 node ++ lines, hflushed.trans hlines, ?_⟩
  rw [List.append_assoc, hrest]

theorem emitPartial_spec (hbuffer : buffer.length ≤ maxBufferSize) :
    Emitted maxBufferSize node buffer st (emitPartial io maxBufferSize node buffer st) := by
  by_cases hover : maxBufferSize < (st.1 node).length + buffer.length ∧ st.1 node ≠ []
  · refine ⟨buffer, output io node (st.1 node) st.2, ?_, hbuffer, st.1 node, .output io node _ _,
      rfl⟩
    simp [emitPartial, hover, hbuffer]
  · have hle : buffer.length + (st.1 node).length ≤ maxBufferSize := by
      by_contra hlt
      have hnil : st.1 node = [] := by
        by_contra hne
        exact hover ⟨by omega, hne⟩
      simp only [hnil, List.length_nil] at hlt
      omega
    refine ⟨st.1 node ++ buffer, st.2, ?_, ?_, [], .refl node _, rfl⟩
    · simp only [emitPartial, hover, decide_false, Bool.false_eq_true, if_false, hle, if_true]
    · simpa [add_comm] using hle

/-- With a chunk that fits the buffer both assertions of `emit` hold. -/
theorem emit_spec (hbuffer : buffer.length ≤ maxBufferSize) :
    Emitted maxBufferSize node buffer st (emit io maxBufferSize flags node buffer st) := by
  unfold emit
  split
  · exact emitComplete_spec io hbuffer _
  · exact emitPartial_spec io hbuffer

end Emit

def stream (chunks : List (ℕ × List UInt8)) (node : ℕ) : List UInt8 :=
  (chunks.filter (·.1 = node)).flatMap Prod.snd

theorem emitAll_spec (io : Stdio ω) (flags : ℕ) {maxBufferSize : ℕ}
    {chunks : List (ℕ × List UInt8)} (hchunks : ∀ c ∈ chunks, c.2.length ≤ maxBufferSize)
    (st : Info × Fout ω) (hst : ∀ k, (st.1 k).length ≤ maxBufferSize) :
    ∃ st', emitAll io maxBufferSize flags st chunks = some st' ∧
      (∀ k, (st'.1 k).length ≤ maxBufferSize) ∧
      ∀ k, st'.2.data k ++ st'.1 k = st.2.data k ++ st.1 k ++ stream chunks k := by
  induction chunks generalizing st with
  | nil => exact ⟨st, rfl, hst, fun k ↦ by simp [stream]⟩
  | cons c chunks ih =>
      obtain ⟨node, buffer⟩ := c
      obtain ⟨rest, f', hemit, hrest, bs, hbs, heq⟩ :
          Emitted maxBufferSize node buffer st (emit io maxBufferSize flags node buffer st) :=
        emit_spec io (hchunks (node, buffer) (by simp))
      have hst' : ∀ k, (Function.update st.1 node rest k).length ≤ maxBufferSize := by
        intro k
        by_cases hk : k = node
        · simpa [hk] using hrest
        · simpa [hk] using hst k
      obtain ⟨st', hall, hle, hdata⟩ :=
        ih (fun c hc ↦ hchunks c (List.mem_cons_of_mem _ hc))
          (Function.update st.1 node rest, f') hst'
      refine ⟨st', ?_, hle, fun k ↦ ?_⟩
      · rw [emitAll, List.foldlM_cons, hemit]
        exact hall
      · rw [hdata k, hbs k]
        by_cases hk : k = node
        · subst hk
          simp only [stream, if_true, Function.update_self, decide_true, List.filter_cons_of_pos,
            List.flatMap_cons]
          rw [List.append_assoc _ bs, heq]
          simp
        · simp [stream, hk, Ne.symm hk]

theorem flush_spec (io : Stdio ω) (flags n : ℕ) (st : Info × Fout ω) :
    (∀ k, (flush io flags n st).2.data k ++ (flush io flags n st).1 k = st.2.data k ++ st.1 k) ∧
      ∀ k < n, (flush io flags n st).1 k = [] := by
  induction n with
  | zero => exact ⟨fun _ ↦ rfl, by simp⟩
  | succ n ih =>
      obtain ⟨hdata, hempty⟩ := ih
      have hsucc : flush io flags (n + 1) st = flushNode io flags (flush io flags n st) n := by
        simp [flush, List.range_succ]
      rw [hsucc]
      generalize flush io flags n st = t at hdata hempty ⊢
      by_cases hnil : t.1 n = []
      · rw [flushNode, if_pos hnil]
        refine ⟨hdata, fun k hk ↦ ?_⟩
        rcases Nat.lt_succ_iff_lt_or_eq.mp hk with hk | rfl
        · exact hempty k hk
        · exact hnil
      · have hwrites := ((Appends.ident_ite (flags ≠ 0) flags n t.2).trans
          (.output io n (t.1 n) _)).trans (.put_of_ne (by decide : Kind.newline ≠ .data) n
            [newline] _)
        rw [flushNode, if_neg hnil]
        refine ⟨fun k ↦ ?_, fun k hk ↦ ?_⟩
        · rw [← hdata k, hwrites k]
          by_cases hk : k = n
          · subst hk
            simp
          · simp [hk]
        · by_cases hkn : k = n
          · simp [hkn]
          · simpa [hkn] using hempty k (by omega)

/-- Whatever the nodes below `MAX_NUM_NODES` send, in chunks that fit the buffer and in any
order, no assertion of `emit` fails, no buffer ever holds more than `MAX_BUFFER_SIZE` bytes,
and when `flush` is done each node's output has been written, byte for byte. -/
theorem output_complete (io : Stdio ω) (maxBufferSize flags : ℕ) (w : ω)
    (chunks : List (ℕ × List UInt8))
    (hchunks : ∀ c ∈ chunks, c.1 < maxNumNodes ∧ c.2.length ≤ maxBufferSize) :
    ∃ st, emitAll io maxBufferSize flags (start w) chunks = some st ∧
      (∀ k, (st.1 k).length ≤ maxBufferSize) ∧
      ∀ k, (flush io flags maxNumNodes st).2.data k = stream chunks k := by
  obtain ⟨st, hall, hle, hdata⟩ := emitAll_spec io flags (fun c hc ↦ (hchunks c hc).2) (start w)
    (by simp [start])
  obtain ⟨hflush, hempty⟩ := flush_spec io flags maxNumNodes st
  refine ⟨st, hall, hle, fun k ↦ ?_⟩
  have hk : (flush io flags maxNumNodes st).2.data k ++ (flush io flags maxNumNodes st).1 k =
      stream chunks k := by
    rw [hflush, hdata]
    simp [start, Fout.data]
  by_cases hlt : k < maxNumNodes
  · rwa [hempty k hlt, List.append_nil] at hk
  · have hnone : stream chunks k = [] := by
      simp only [stream, List.flatMap_eq_nil_iff, List.mem_filter, decide_eq_true_eq]
      rintro c ⟨hc, rfl⟩
      exact absurd (hchunks c hc).1 hlt
    rw [hnone] at hk ⊢
    exact (List.append_eq_nil_iff.mp hk).1

def byteStdio : Stdio Unit where
  fwrite _ bs := ((), min 1 bs.length)
  pos _ bs hbs := by
    have hpos := List.length_pos_of_ne_nil hbs
    simp only
    omega
  le _ bs := Nat.min_le_right ..

theorem output_complete_pieces :
    (∀ c ∈ [(1, [104, 105]), (2, [111, 107, 10]), (1, [10, 33])],
      c.1 < maxNumNodes ∧ c.2.length ≤ 4) ∧
    ∃ st, emitAll byteStdio 4 1 (start ()) [(1, [104, 105]), (2, [111, 107, 10]), (1, [10, 33])] =
        some st ∧ (∀ k, (st.1 k).length ≤ 4) ∧
      ∀ k, (flush byteStdio 1 maxNumNodes st).2.data k =
        stream [(1, [104, 105]), (2, [111, 107, 10]), (1, [10, 33])] k :=
  ⟨by decide, output_complete byteStdio 4 1 () _ (by decide)⟩

end AxiomApps.Run.Output
