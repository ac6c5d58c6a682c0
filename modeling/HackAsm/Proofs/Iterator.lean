import HackAsm.Proofs.SecondPass

/-!
# The second pass one step at a time

`Encoder.next` is the second pass as its callers see it: one call, one item. This file relates
it to `encodeFrom`, which runs the pass to its end, through the items a state has still to
yield (`Encoder.pending`): the second pass over the lines it has not read, or nothing once a line
has failed. One call yields the first of them and leaves the rest (`next_pending`); so `n` calls
yield the first `n` items and then nothing (`steps_fst`). A call also keeps the context the
iterator ends with (`next_finalContext`), so a stopped iterator holds the context of the whole
pass. Every lemma about one call rests on `next_cases`, which says once what a call can do.

From that simulation follow the two properties of the iterator over a program:

* it stops at the first line that fails, for good, and `assemble` reports what it yielded
  (`encoder_halts_at_first_failure`);
* every address it hands out fits in fifteen bits, because it never counts past the ROM
  (`encoder_stays_in_rom`). This one is an invariant of single steps, `Encoder.Bounded`: the
  address plus the instruction lines still to read never grows, and it starts within the ROM
  because the first pass admitted the program.
-/

set_option autoImplicit false

namespace HackAsm

/-- What the second pass yields, in order: a word for each line that assembled, then the error
it stopped at, if any. -/
def Encoding.items (enc : Encoding) : List (Except LineError Word) :=
  enc.words.toList.map .ok ++ enc.failure.toList.map .error

namespace Encoder

/-- The items a state of the iterator has still to yield: nothing once a line has failed, else
those of the second pass over the lines it has not read. -/
def pending (e : Encoder) : List (Except LineError Word) :=
  if e.halted then [] else (encodeFrom e.pc e.context #[] e.lines).items

/-- The items of `n` calls of `next` in order, and the state after them. -/
def steps : Nat → Encoder → List (Option (Except LineError Word)) × Encoder
  | 0, e => ([], e)
  | n + 1, e => (e.next.1 :: (steps n e.next.2).1, (steps n e.next.2).2)

end Encoder

/-! ## The lines an iterator skips -/

/-- Skipping the lines that take no address leaves the instruction lines as they were. -/
theorem codeLines_dropWhile (lines : List Line) :
    codeLines (lines.dropWhile (·.statement != .instruction)) = codeLines lines := by
  induction lines with
  | nil => rfl
  | cons line rest ih =>
    by_cases hs : line.statement = .instruction
    · simp [hs]
    · simp [hs, ih, codeLines_cons_of_ne rest hs]

/-- Where the iterator finds the next instruction line, the second pass finds it too. -/
theorem encodeFrom_dropWhile (pc : Nat) (ctx : Context) (words : Array Word) (lines : List Line) :
    encodeFrom pc ctx words (lines.dropWhile (·.statement != .instruction)) =
      encodeFrom pc ctx words lines := by
  rw [← encodeFrom_codeLines, codeLines_dropWhile, encodeFrom_codeLines]

theorem statement_of_dropWhile_eq_cons {lines rest : List Line} {line : Line}
    (h : lines.dropWhile (·.statement != .instruction) = line :: rest) :
    line.statement = .instruction := by
  have := @List.head_dropWhile_not _ (fun l : Line => l.statement != .instruction) lines
    (by simp [h])
  simpa [h] using this

/-! ## One step -/

theorem items_encodeFrom_cons_ok {pc : Nat} {ctx ctx' : Context} {line : Line}
    {rest : List Line} {inst : Instruction} (hs : line.statement = .instruction)
    (h : encodeLine line ctx = (.ok inst, ctx')) :
    (encodeFrom pc ctx #[] (line :: rest)).items =
      .ok ⟨line.idx, pc, inst⟩ :: (encodeFrom (pc + 1) ctx' #[] rest).items := by
  rw [encodeFrom_cons_ok hs h, encodeFrom_eq_append]
  simp [Encoding.items]

theorem items_encodeFrom_cons_error {pc : Nat} {ctx ctx' : Context} {line : Line}
    {rest : List Line} {e : Error} (hs : line.statement = .instruction)
    (h : encodeLine line ctx = (.error e, ctx')) :
    (encodeFrom pc ctx #[] (line :: rest)).items = [.error (line.fail e)] := by
  simp [encodeFrom_cons_error hs h, Encoding.items]

/-- What one call of `next` can do: nothing once halted; forget the lines when no instruction
line is left; or read the next instruction line, and either yield its word and go on, or yield
its error and halt. -/
theorem Encoder.next_cases (e : Encoder) :
    (e.halted = true ∧ e.next = (none, e)) ∨
    (e.halted = false ∧ e.lines.dropWhile (·.statement != .instruction) = [] ∧
      e.next = (none, { e with lines := [] })) ∨
    (∃ line rest inst ctx, e.halted = false ∧
      e.lines.dropWhile (·.statement != .instruction) = line :: rest ∧
      encodeLine line e.context = (.ok inst, ctx) ∧
      e.next = (some (.ok ⟨line.idx, e.pc, inst⟩),
        { lines := rest, context := ctx, pc := e.pc + 1, halted := false })) ∨
    (∃ line rest err ctx, e.halted = false ∧
      e.lines.dropWhile (·.statement != .instruction) = line :: rest ∧
      encodeLine line e.context = (.error err, ctx) ∧
      e.next = (some (.error (line.fail err)),
        { lines := rest, context := ctx, pc := e.pc + 1, halted := true })) := by
  cases hh : e.halted
  · rw [Encoder.next, hh, if_neg Bool.false_ne_true]
    cases hd : e.lines.dropWhile (·.statement != .instruction) with
    | nil => exact .inr (.inl ⟨rfl, rfl, rfl⟩)
    | cons line rest =>
      cases henc : encodeLine line e.context with
      | mk result ctx =>
        cases result with
        | ok inst =>
          exact .inr (.inr (.inl ⟨line, rest, inst, ctx, rfl, rfl, henc, by simp only [henc]⟩))
        | error err =>
          exact .inr (.inr (.inr ⟨line, rest, err, ctx, rfl, rfl, henc, by simp only [henc]⟩))
  · exact .inl ⟨rfl, by simp [Encoder.next, hh]⟩

/-- Where the iterator has not halted, what it has still to yield is the second pass from the next
instruction line on. -/
theorem Encoder.pending_of_halted_eq_false {e : Encoder} (hh : e.halted = false) :
    e.pending = (encodeFrom e.pc e.context #[]
      (e.lines.dropWhile (·.statement != .instruction))).items := by
  simp [Encoder.pending, hh, encodeFrom_dropWhile]

/-- One call of `next` yields the first pending item and leaves the others pending. -/
theorem Encoder.next_pending (e : Encoder) :
    e.next.1 = e.pending.head? ∧ e.next.2.pending = e.pending.tail := by
  rcases e.next_cases with ⟨hh, hnext⟩ | ⟨hh, hnil, hnext⟩ |
      ⟨line, rest, inst, ctx, hh, hcons, h, hnext⟩ | ⟨line, rest, err, ctx, hh, hcons, h, hnext⟩
  · simp [hnext, Encoder.pending, hh]
  · rw [Encoder.pending_of_halted_eq_false hh, hnil, hnext]
    simp [encodeFrom, Encoding.items, Encoder.pending, hh]
  · rw [Encoder.pending_of_halted_eq_false hh, hcons, hnext,
      items_encodeFrom_cons_ok (statement_of_dropWhile_eq_cons hcons) h]
    simp [Encoder.pending]
  · rw [Encoder.pending_of_halted_eq_false hh, hcons, hnext,
      items_encodeFrom_cons_error (statement_of_dropWhile_eq_cons hcons) h]
    simp [Encoder.pending]

/-! ## Any number of steps -/

/-- `n` calls of `next` yield the first `n` pending items, and nothing once they run out. -/
theorem Encoder.steps_fst (n : Nat) (e : Encoder) :
    (e.steps n).1 = (List.range n).map fun k => e.pending[k]? := by
  induction n generalizing e with
  | zero => rfl
  | succ n ih =>
    obtain ⟨hhead, htail⟩ := e.next_pending
    simp only [Encoder.steps, ih, htail, hhead, List.range_succ_eq_map, List.map_cons,
      List.map_map]
    congr 1
    · cases e.pending <;> rfl
    · refine List.map_congr_left fun k _ => ?_
      simp

theorem Encoder.steps_snd_pending (n : Nat) (e : Encoder) :
    (e.steps n).2.pending = e.pending.drop n := by
  induction n generalizing e with
  | zero => rfl
  | succ n ih => simp only [Encoder.steps, ih, e.next_pending.2, List.drop_tail]

/-! ## The context an iterator ends with -/

/-- The context a state of the iterator ends with: its own once a line has failed, else the one
the second pass over the lines it has not read ends with. -/
def Encoder.finalContext (e : Encoder) : Context :=
  if e.halted then e.context else (encodeFrom e.pc e.context #[] e.lines).context

/-- A call of `next` does not change the context the iterator ends with. -/
theorem Encoder.next_finalContext (e : Encoder) : e.next.2.finalContext = e.finalContext := by
  have hfinal : e.halted = false → e.finalContext = (encodeFrom e.pc e.context #[]
      (e.lines.dropWhile (·.statement != .instruction))).context := by
    intro hh
    simp [Encoder.finalContext, hh, encodeFrom_dropWhile]
  rcases e.next_cases with ⟨hh, hnext⟩ | ⟨hh, hnil, hnext⟩ |
      ⟨line, rest, inst, ctx, hh, hcons, h, hnext⟩ | ⟨line, rest, err, ctx, hh, hcons, h, hnext⟩
  · rw [hnext]
  · rw [hfinal hh, hnil, hnext]
    simp [encodeFrom, Encoder.finalContext, hh]
  · rw [hfinal hh, hcons, hnext, encodeFrom_cons_ok (statement_of_dropWhile_eq_cons hcons) h,
      encodeFrom_eq_append]
    simp [Encoder.finalContext]
  · rw [hfinal hh, hcons, hnext, encodeFrom_cons_error (statement_of_dropWhile_eq_cons hcons) h]
    simp [Encoder.finalContext]

theorem Encoder.steps_finalContext (n : Nat) (e : Encoder) :
    (e.steps n).2.finalContext = e.finalContext := by
  induction n generalizing e with
  | zero => rfl
  | succ n ih => simp only [Encoder.steps, ih, e.next_finalContext]

/-- Once nothing is pending, the iterator holds the context it ends with: no instruction line is
left to change it. -/
theorem Encoder.context_of_pending_eq_nil {e : Encoder} (h : e.pending = []) :
    e.context = e.finalContext := by
  by_cases hh : e.halted
  · simp [Encoder.finalContext, hh]
  · have hwords : (encodeFrom e.pc e.context #[] e.lines).words.size = 0 := by
      simp [Encoder.pending, hh, Encoding.items] at h
      simp [h.1]
    have hctx := (trace_encodeFrom e.context e.pc e.lines).context
    rw [hwords, List.take_zero, contextAfter_nil] at hctx
    simp [Encoder.finalContext, hh, hctx]

/-! ## What the second pass yields -/

namespace Encoding

variable {enc : Encoding}

theorem items_getElem?_of_lt {k : Nat} (hk : k < enc.words.size) :
    enc.items[k]? = some (.ok enc.words[k]) := by
  simp [items, List.getElem?_append_left, hk]

theorem length_items_le (enc : Encoding) : enc.items.length ≤ enc.words.size + 1 := by
  cases h : enc.failure <;> simp [items, h]

/-- The items are words up to the first error or the end; after either, there is nothing. -/
theorem items_getElem?_eq_none_of_stopped {k j : Nat}
    (hstop : enc.items[k]? = none ∨ ∃ err, enc.items[k]? = some (.error err)) (hj : k < j) :
    enc.items[j]? = none := by
  rw [List.getElem?_eq_none_iff]
  rcases hstop with hnone | ⟨err, herr⟩
  · have := List.getElem?_eq_none_iff.mp hnone
    omega
  · have hk : enc.words.size ≤ k := by
      refine Nat.le_of_not_lt fun hlt => ?_
      rw [items_getElem?_of_lt hlt] at herr
      cases herr
    have := enc.length_items_le
    omega

end Encoding

/-! ## The iterator over a program -/

section Program

variable {p : Program}

@[simp]
theorem Program.encoder_pending (p : Program) : p.encoder.pending = p.encode.items :=
  rfl

/-- Once the iterator over a program has yielded all its items, it holds the context the second
pass ends with. -/
theorem Program.encoder_context_of_stopped {n : Nat} (hn : p.encode.items.length ≤ n) :
    (p.encoder.steps n).2.context = p.encode.context := by
  have hpending : (p.encoder.steps n).2.pending = [] := by
    rw [Encoder.steps_snd_pending, Program.encoder_pending]
    exact List.drop_eq_nil_of_le hn
  rw [Encoder.context_of_pending_eq_nil hpending, Encoder.steps_finalContext]
  rfl

theorem encodeLine_fst_eq_error_iff {line : Line} {ctx : Context} {e : Error} :
    (encodeLine line ctx).1 = .error e ↔ Code.parse line.code = .error e ∨
      ∃ code, Code.parse line.code = .ok code ∧ (code.resolve ctx).1 = .error e := by
  unfold encodeLine
  cases Code.parse line.code <;> simp

/-- The second pass stops with an error exactly at the first instruction line that fails to
read, or to resolve in the context that the lines before it left. -/
theorem Program.encode_failure_iff {err : LineError} :
    p.encode.failure = some err ↔ ∃ k line e, (codeLines p.lines)[k]? = some line ∧
      (∀ j l, j < k → (codeLines p.lines)[j]? = some l →
        ∃ inst, (encodeLine l (p.contextBefore j)).1 = .ok inst) ∧
      (Code.parse line.code = .error e ∨
        ∃ code, Code.parse line.code = .ok code ∧ (code.resolve (p.contextBefore k)).1 = .error e) ∧
      err = line.fail e := by
  constructor
  · intro h
    obtain ⟨line, e, hl, he, rfl⟩ := p.encode_failure h
    refine ⟨p.encode.words.size, line, e, hl, ?_, encodeLine_fst_eq_error_iff.mp he, rfl⟩
    intro j l hj hlj
    obtain ⟨l', hl', -, -, henc⟩ := p.encode_word j hj
    obtain rfl : l' = l := Option.some.inj (hl'.symm.trans hlj)
    exact ⟨_, henc⟩
  · rintro ⟨k, line, e, hl, hbefore, hfail, rfl⟩
    have he := encodeLine_fst_eq_error_iff.mpr hfail
    -- the failing line is the one after the words: before them every line assembled, and the
    -- line after them fails, which no line before `k` does
    rcases Nat.lt_trichotomy k p.encode.words.size with hlt | rfl | hgt
    · obtain ⟨l', hl', -, -, henc⟩ := p.encode_word k hlt
      obtain rfl : l' = line := Option.some.inj (hl'.symm.trans hl)
      rw [henc] at he
      cases he
    · obtain ⟨e', he', hfail'⟩ := p.trace_encode.stop line hl
      have : e' = e := Except.error.inj ((he'.symm.trans he))
      rw [hfail', this]
    · have hlen : p.encode.words.size < (codeLines p.lines).length :=
        Nat.lt_trans hgt (List.getElem?_eq_some_iff.mp hl).1
      obtain ⟨e', he', -⟩ := p.trace_encode.stop _ (List.getElem?_eq_getElem hlen)
      obtain ⟨inst, hinst⟩ := hbefore _ _ hgt (List.getElem?_eq_getElem hlen)
      have : (Except.ok inst : Except Error Instruction) = .error e' := hinst.symm.trans he'
      cases this

theorem assemble_eq_of_failure_none {source : String} (h : Program.read source = .ok p)
    (hf : p.encode.failure = none) : assemble source = .ok p.encode.words := by
  simp [assemble, h, hf, bind, Except.bind]

theorem assemble_eq_of_failure_some {source : String} (h : Program.read source = .ok p)
    {err : LineError} (hf : p.encode.failure = some err) : assemble source = .error err := by
  simp [assemble, h, hf, bind, Except.bind]

/-- `assemble` returns the words exactly when the second pass yields no error. -/
theorem assemble_eq_ok_iff {source : String} (h : Program.read source = .ok p)
    (ws : Array Word) : assemble source = .ok ws ↔ p.encode.items = ws.toList.map .ok := by
  cases hf : p.encode.failure with
  | none =>
    simp only [assemble_eq_of_failure_none h hf, Encoding.items, hf, Option.toList_none,
      List.map_nil, List.append_nil, Except.ok.injEq]
    rw [List.map_inj_right fun _ _ h => Except.ok.inj h, Array.toList_inj]
  | some err =>
    simp only [assemble_eq_of_failure_some h hf, Encoding.items, hf, Option.toList_some,
      List.map_cons, List.map_nil, reduceCtorEq, false_iff]
    intro heq
    have : Except.error err ∈ ws.toList.map (Except.ok : Word → Except LineError Word) := by
      rw [← heq]
      simp
    simp at this

/-- When the second pass yields an error, `assemble` returns exactly that error. -/
theorem assemble_eq_error_iff {source : String} (h : Program.read source = .ok p)
    (err : LineError) : assemble source = .error err ↔ Except.error err ∈ p.encode.items := by
  cases hf : p.encode.failure with
  | none => simp [assemble_eq_of_failure_none h hf, Encoding.items, hf]
  | some err' => simp [assemble_eq_of_failure_some h hf, Encoding.items, hf, eq_comm]

end Program

/-- How the iterator over the second pass of a program read from `source` behaves. -/
structure HaltsAtFirstFailure (source : String) (p : Program) : Prop where
  /-- The `k`-th call of `next` yields the `k`-th item of the second pass, and nothing once the
  items run out. -/
  yields : ∀ n, (p.encoder.steps n).1 = (List.range n).map fun k => p.encode.items[k]?
  /-- After an error, or after nothing, every later call yields nothing. -/
  fused : ∀ k j : Nat, (p.encode.items[k]? = none ∨ ∃ err, p.encode.items[k]? = some (.error err)) →
    k < j → p.encode.items[j]? = none
  /-- The words come from a prefix of the instruction lines, each resolved in the context that
  the lines before it left. -/
  word : ∀ k (hk : k < p.encode.words.size), ∃ line, (codeLines p.lines)[k]? = some line ∧
    p.encode.words[k].idx = line.idx ∧ p.encode.words[k].pc = k ∧
    (encodeLine line (p.contextBefore k)).1 = .ok p.encode.words[k].inst
  /-- The error is that of the first instruction line that fails to read, or to resolve in the
  context that the lines before it left. -/
  failure : ∀ err, p.encode.failure = some err ↔ ∃ k line e, (codeLines p.lines)[k]? = some line ∧
    (∀ j l, j < k → (codeLines p.lines)[j]? = some l →
      ∃ inst, (encodeLine l (p.contextBefore j)).1 = .ok inst) ∧
    (Code.parse line.code = .error e ∨
      ∃ code, Code.parse line.code = .ok code ∧ (code.resolve (p.contextBefore k)).1 = .error e) ∧
    err = line.fail e
  /-- A failing line changes no context, so a pass that fails ends in the context before it. -/
  unchanged : (∀ line ctx e, (encodeLine line ctx).1 = .error e → (encodeLine line ctx).2 = ctx) ∧
    ∀ err, p.encode.failure = some err → p.encode.context = p.contextBefore p.encode.words.size
  /-- Assembling gives all the words when no error is yielded, and otherwise that error. -/
  assemble_ok : ∀ ws, assemble source = .ok ws ↔ p.encode.items = ws.toList.map .ok
  assemble_error : ∀ err, assemble source = .error err ↔ Except.error err ∈ p.encode.items

/-- The iterator over the second pass of every program that passes the first pass yields the
words of the instruction lines up to the first that fails, then that line's error, then nothing. -/
theorem encoder_halts_at_first_failure {source : String} {p : Program}
    (h : Program.read source = .ok p) : HaltsAtFirstFailure source p where
  yields n := by simpa using p.encoder.steps_fst n
  fused _ _ hstop hj := Encoding.items_getElem?_eq_none_of_stopped hstop hj
  word := p.encode_word
  failure _ := Program.encode_failure_iff
  unchanged := ⟨fun _ _ _ he => encodeLine_snd_of_error he, fun _ _ => p.trace_encode.context⟩
  assemble_ok := assemble_eq_ok_iff h
  assemble_error := assemble_eq_error_iff h

/-- The iterator at a program that loads a label declared at its top, then reaches a malformed
label, which takes an address and fails. -/
theorem encoder_halts_at_first_failure_after_label :
    Program.read "(LOOP)\n@LOOP\n(1X)\n0;JMP" =
        .ok ⟨readLines "(LOOP)\n@LOOP\n(1X)\n0;JMP", Table.empty.insert "LOOP" 0⟩ ∧
      HaltsAtFirstFailure "(LOOP)\n@LOOP\n(1X)\n0;JMP"
        ⟨readLines "(LOOP)\n@LOOP\n(1X)\n0;JMP", Table.empty.insert "LOOP" 0⟩ := by
  have hsplit : Text.splitLines "(LOOP)\n@LOOP\n(1X)\n0;JMP" =
      ["(LOOP)", "@LOOP", "(1X)", "0;JMP"] := by
    decide +kernel
  have h : Program.read "(LOOP)\n@LOOP\n(1X)\n0;JMP" =
      .ok ⟨readLines "(LOOP)\n@LOOP\n(1X)\n0;JMP", Table.empty.insert "LOOP" 0⟩ := by
    apply Program.read_of_collectLabels
    rw [readLines, hsplit]
    simp only [List.mapIdx_cons, List.mapIdx_nil]
    rw [collectLabels,
      collectLabelsFrom_cons_fresh "LOOP" _ (by decide +kernel) (by decide +kernel) (by simp)
        (by decide),
      collectLabelsFrom_cons_instruction _ (by decide +kernel) (by decide),
      collectLabelsFrom_cons_instruction _ (by decide +kernel) (by decide),
      collectLabelsFrom_cons_instruction _ (by decide +kernel) (by decide)]
    rfl
  exact ⟨h, encoder_halts_at_first_failure h⟩

/-! ## Addresses stay within the ROM -/

/-- An iterator state that cannot count past the ROM: its address and the instruction lines it
has still to read fit in the ROM together. -/
def Encoder.Bounded (e : Encoder) : Prop :=
  e.pc + (codeLines e.lines).length ≤ romSize

/-- One step keeps a state bounded, and the word it yields has an address inside the ROM. -/
theorem Encoder.Bounded.next {e : Encoder} (h : e.Bounded) :
    e.next.2.Bounded ∧ ∀ w, e.next.1 = some (.ok w) → w.pc < romSize := by
  unfold Encoder.Bounded at h ⊢
  -- the line read is the first instruction line left, so one fewer is left after it
  have hlen : ∀ {line rest}, e.lines.dropWhile (·.statement != .instruction) = line :: rest →
      (codeLines e.lines).length = (codeLines rest).length + 1 := by
    intro line rest hcons
    rw [← codeLines_dropWhile e.lines, hcons,
      codeLines_cons_of_eq rest (statement_of_dropWhile_eq_cons hcons), List.length_cons]
  rcases e.next_cases with ⟨-, hnext⟩ | ⟨-, -, hnext⟩ |
      ⟨line, rest, inst, ctx, -, hcons, -, hnext⟩ | ⟨line, rest, err, ctx, -, hcons, -, hnext⟩
  · simp [hnext, h]
  · simp only [hnext, codeLines_nil, List.length_nil, Nat.add_zero, reduceCtorEq, false_implies,
      implies_true, and_true]
    omega
  · have := hlen hcons
    simp only [hnext, Option.some.injEq, Except.ok.injEq]
    refine ⟨by omega, ?_⟩
    rintro w rfl
    show e.pc < romSize
    omega
  · have := hlen hcons
    simp only [hnext, reduceCtorEq, Option.some.injEq, false_implies, implies_true, and_true]
    omega

/-- A bounded state stays bounded over any number of steps, and every word yielded on the way
has an address inside the ROM. -/
theorem Encoder.Bounded.steps {e : Encoder} (h : e.Bounded) (n : Nat) :
    (e.steps n).2.Bounded ∧ ∀ w, some (Except.ok w) ∈ (e.steps n).1 → w.pc < romSize := by
  induction n generalizing e with
  | zero => exact ⟨h, by simp [Encoder.steps]⟩
  | succ n ih =>
    obtain ⟨hnext, hword⟩ := h.next
    obtain ⟨hbound, hwords⟩ := ih hnext
    refine ⟨hbound, fun w hw => ?_⟩
    simp only [Encoder.steps, List.mem_cons] at hw
    rcases hw with hw | hw
    · exact hword w hw.symm
    · exact hwords w hw

/-- The iterator over a program that passed the first pass starts bounded. -/
theorem Program.encoder_bounded {source : String} {p : Program}
    (h : Program.read source = .ok p) : p.encoder.Bounded := by
  simpa [Encoder.Bounded, Program.encoder] using length_codeLines_le (Program.read_eq_ok h).2

/-- A load's machine word has bit 15 clear, so its numeral starts with `0`. -/
theorem Numeral.head?_binary (w n : Nat) :
    (Numeral.binary (w + 1) n).head? = some (if n / 2 ^ w % 2 = 1 then '1' else '0') := by
  induction w generalizing n with
  | zero => simp [Numeral.binary]
  | succ w ih =>
    rw [Numeral.binary, List.head?_append, ih]
    simp [Nat.div_div_eq_div_mul, Nat.pow_succ, Nat.mul_comm]

theorem Instruction.head?_binary_load (v : Address) :
    (Instruction.load v).binary.toList.head? = some '0' := by
  have hv : v.val / 2 ^ 15 % 2 = 0 := by
    have := v.isLt
    omega
  have hb := Numeral.head?_binary 15 v.val
  rw [hv] at hb
  simpa [Instruction.binary, Instruction.encode, Numeral.word] using hb

/-- The bounds the iterator over a program's second pass keeps. -/
structure StaysInRom (p : Program) : Prop where
  /-- After any number of calls the address counter is at most the ROM size, so counting on
  never overflows sixteen bits. -/
  pc_le : ∀ n, (p.encoder.steps n).2.pc ≤ romSize
  /-- Every word yielded has a fifteen-bit address, and a loaded value fits in fifteen bits: its
  machine word has bit 15 clear, and its numeral starts with `0`. -/
  word : ∀ n w, some (Except.ok w) ∈ (p.encoder.steps n).1 → w.pc ≤ addressMax ∧
    ∀ v, w.inst = .load v → v.val ≤ addressMax ∧ w.inst.encode < 2 ^ 15 ∧
      w.inst.binary.toList.head? = some '0'

/-- The iterator over the second pass of every program that passes the first pass stays within
the ROM and hands out fifteen-bit addresses only. -/
theorem encoder_stays_in_rom {source : String} {p : Program} (h : Program.read source = .ok p) :
    StaysInRom p where
  pc_le n := by
    have := ((Program.encoder_bounded h).steps n).1
    unfold Encoder.Bounded at this
    omega
  word n w hw := by
    have hpc := ((Program.encoder_bounded h).steps n).2 w hw
    refine ⟨by unfold romSize at hpc; unfold addressMax; omega, fun v hv => ?_⟩
    have hlt := v.isLt
    refine ⟨by unfold addressMax; omega, by simp [hv, Instruction.encode], ?_⟩
    rw [hv]
    exact Instruction.head?_binary_load v

/-- The bounds at a program with two labels, each loaded after its declaration, and a blank line
between them. -/
theorem encoder_stays_in_rom_two_labels :
    Program.read "(START)\n@START\nD;JGT\n\n(END)\n@END\n0;JMP" =
        .ok ⟨readLines "(START)\n@START\nD;JGT\n\n(END)\n@END\n0;JMP",
          (Table.empty.insert "START" 0).insert "END" 2⟩ ∧
      StaysInRom ⟨readLines "(START)\n@START\nD;JGT\n\n(END)\n@END\n0;JMP",
        (Table.empty.insert "START" 0).insert "END" 2⟩ := by
  have hsplit : Text.splitLines "(START)\n@START\nD;JGT\n\n(END)\n@END\n0;JMP" =
      ["(START)", "@START", "D;JGT", "", "(END)", "@END", "0;JMP"] := by
    decide +kernel
  have h : Program.read "(START)\n@START\nD;JGT\n\n(END)\n@END\n0;JMP" =
      .ok ⟨readLines "(START)\n@START\nD;JGT\n\n(END)\n@END\n0;JMP",
        (Table.empty.insert "START" 0).insert "END" 2⟩ := by
    apply Program.read_of_collectLabels
    rw [readLines, hsplit]
    simp only [List.mapIdx_cons, List.mapIdx_nil]
    -- `END` is fresh after `START`: the first binding answers for `START` alone
    have hfresh : (Table.empty.insert "START" ⟨0, by decide⟩).get? "END" = none := by
      rw [Table.get?_insert _ _ _ _ (Table.get?_empty _)]
      simp
    rw [collectLabels,
      collectLabelsFrom_cons_fresh "START" _ (by decide +kernel) (by decide +kernel) (by simp)
        (by decide),
      collectLabelsFrom_cons_instruction _ (by decide +kernel) (by decide),
      collectLabelsFrom_cons_instruction _ (by decide +kernel) (by decide),
      collectLabelsFrom_cons_blank _ (by decide +kernel),
      collectLabelsFrom_cons_fresh "END" _ (by decide +kernel) (by decide +kernel) hfresh
        (by decide),
      collectLabelsFrom_cons_instruction _ (by decide +kernel) (by decide),
      collectLabelsFrom_cons_instruction _ (by decide +kernel) (by decide)]
    rfl
  exact ⟨h, encoder_stays_in_rom h⟩

end HackAsm
