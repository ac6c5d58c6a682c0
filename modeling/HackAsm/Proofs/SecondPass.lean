import HackAsm.Proofs.FirstPass

/-!
# The second pass, characterised

`encodeFrom` walks all the lines, skips those that take no address, and stops at the first
instruction line that does not assemble. This file describes its result by the instruction lines
alone, as a `Trace`: the words are made from a prefix of the instruction lines, the `j`-th at
address `pc + j`, each line resolved in the context that the lines before it left
(`contextAfter`); the line after the prefix, if there is one, is the first to fail, and its error
is the one reported; and the context at the end is the one the prefix left.

`trace_encodeFrom` proves the trace one instruction line at a time: a line that assembles
extends the trace of the rest by one word in front (`Trace.cons_ok`), and a line that fails ends
it (`Trace.cons_error`). Two facts about one line carry the induction: a failing line leaves the
context as it was (`encodeLine_snd_of_error`), and no line changes the labels
(`encodeLine_labels`).

The last section puts both passes together: the addresses the second pass gives to words are
the ones the first pass counted for labels (`two_passes_agree`).
-/

set_option autoImplicit false

namespace HackAsm

/-! ## One instruction line -/

theorem Context.resolve_snd_of_error {ctx : Context} {name : String} {e : Error}
    (h : (ctx.resolve name).1 = .error e) : (ctx.resolve name).2 = ctx := by
  unfold Context.resolve at h ⊢
  split
  · simp_all
  · split <;> simp_all

theorem Context.resolve_labels (ctx : Context) (name : String) :
    (ctx.resolve name).2.labels = ctx.labels := by
  unfold Context.resolve
  split
  · rfl
  · split <;> rfl

theorem Code.resolve_snd_of_error {code : Code} {ctx : Context} {e : Error}
    (h : (code.resolve ctx).1 = .error e) : (code.resolve ctx).2 = ctx := by
  cases code with
  | address operand =>
    cases operand with
    | literal v => simp [Code.resolve] at h
    | symbol name =>
      simp only [Code.resolve] at h ⊢
      cases hr : (ctx.resolve name).1 with
      | ok v => simp [hr, Except.map] at h
      | error e' => exact Context.resolve_snd_of_error hr
  | compute => simp [Code.resolve] at h

/-- A line that fails leaves the symbol context as it was: it allocates nothing. -/
theorem encodeLine_snd_of_error {line : Line} {ctx : Context} {e : Error}
    (h : (encodeLine line ctx).1 = .error e) : (encodeLine line ctx).2 = ctx := by
  unfold encodeLine at h ⊢
  split
  · rename_i code hparse
    rw [hparse] at h
    exact Code.resolve_snd_of_error h
  · rfl

@[simp]
theorem encodeLine_labels (line : Line) (ctx : Context) :
    (encodeLine line ctx).2.labels = ctx.labels := by
  unfold encodeLine
  split
  · rename_i code _
    cases code with
    | address operand =>
      cases operand with
      | literal v => rfl
      | symbol name => exact Context.resolve_labels ctx name
    | compute => rfl
  · rfl

theorem Operand.numeral?_cons_eq_none {c : Char} {cs : List Char} (hc : c ≠ '-')
    (hd : c.isDigit = false) : Operand.numeral? (c :: cs) = none := by
  unfold Operand.numeral?
  split
  next negative ds heq =>
    have hsign : (false, c :: cs) = (negative, ds) := by
      rw [← heq]
      split <;> simp_all
    cases hsign
    simp [hd]

/-- A symbol never reads as a number, so an operand spelled as a symbol is that symbol. -/
theorem Operand.parse_of_isSymbol {name : String} (h : Symbol.isSymbol name = true) :
    Operand.parse name = .ok (.symbol name) := by
  have hnum : Operand.numeral? name.toList = none := by
    unfold Symbol.isSymbol at h
    cases hn : name.toList with
    | nil => simp [hn, Symbol.isSymbolChars] at h
    | cons c cs =>
      simp only [hn, Symbol.isSymbolChars, Bool.and_eq_true, Bool.not_eq_true'] at h
      obtain ⟨⟨hc, hd⟩, -⟩ := h
      refine Operand.numeral?_cons_eq_none ?_ hd
      rintro rfl
      simp [Symbol.isSymbolChar] at hc
  simp [Operand.parse, hnum, h]

theorem Code.parse_load {name : String} {operand : Operand}
    (h : Operand.parse name = .ok operand) :
    Code.parse ("@" ++ name) = .ok (.address operand) := by
  have hcs : ("@" ++ name).toList = '@' :: name.toList := by simp
  unfold Code.parse
  rw [hcs]
  simp only [String.ofList_toList, h]
  rfl

/-- A load of a label that is not predefined resolves to the label's address, in any context
with that label, and changes nothing. -/
theorem encodeLine_load_label {line : Line} {ctx : Context} {name : String} {a : Address}
    (hcode : line.code = "@" ++ name) (hsym : Symbol.isSymbol name = true)
    (hpre : Symbol.predefined? name = none) (hlabel : ctx.labels.get? name = some a) :
    encodeLine line ctx = (.ok (.load a), ctx) := by
  have hlookup : ctx.lookup name = some a := by
    simp [Context.lookup, hpre, hlabel]
  simp [encodeLine, hcode, Code.parse_load (Operand.parse_of_isSymbol hsym), Code.resolve,
    Context.resolve_of_lookup_eq_some ctx name a hlookup, Except.map]

/-- The context after resolving `lines` one after another from `ctx`. A failing line leaves the
context as it was, so over lines that all assemble this is the context the second pass reaches. -/
def contextAfter (ctx : Context) (lines : List Line) : Context :=
  lines.foldl (fun c line => (encodeLine line c).2) ctx

@[simp]
theorem contextAfter_nil (ctx : Context) : contextAfter ctx [] = ctx :=
  rfl

@[simp]
theorem contextAfter_cons (ctx : Context) (line : Line) (rest : List Line) :
    contextAfter ctx (line :: rest) = contextAfter (encodeLine line ctx).2 rest :=
  rfl

theorem contextAfter_append (ctx : Context) (a b : List Line) :
    contextAfter ctx (a ++ b) = contextAfter (contextAfter ctx a) b :=
  List.foldl_append

@[simp]
theorem contextAfter_labels (ctx : Context) (lines : List Line) :
    (contextAfter ctx lines).labels = ctx.labels := by
  induction lines generalizing ctx with
  | nil => rfl
  | cons line rest ih => simp [ih]

/-! ## Lines that take no address -/

/-- The second pass reads only the instruction lines. -/
theorem encodeFrom_codeLines (pc : Nat) (ctx : Context) (words : Array Word) (lines : List Line) :
    encodeFrom pc ctx words (codeLines lines) = encodeFrom pc ctx words lines := by
  induction lines generalizing pc ctx words with
  | nil => rfl
  | cons line rest ih =>
    by_cases hs : line.statement = .instruction
    · rw [codeLines_cons_of_eq rest hs]
      simp only [encodeFrom, hs]
      split <;> simp [ih]
    · rw [codeLines_cons_of_ne rest hs, ih]
      cases h : line.statement <;> simp_all [encodeFrom]

/-- The words already made only stand in front of the rest: the pass goes on the same way. -/
theorem encodeFrom_eq_append (pc : Nat) (ctx : Context) (words : Array Word) (lines : List Line) :
    encodeFrom pc ctx words lines =
      { encodeFrom pc ctx #[] lines with words := words ++ (encodeFrom pc ctx #[] lines).words } := by
  induction lines generalizing pc ctx words with
  | nil => simp [encodeFrom]
  | cons line rest ih =>
    simp only [encodeFrom]
    split
    · split
      · rw [ih _ _ (words.push _), ih _ _ (#[].push _)]
        simp
      · simp
    · exact ih pc ctx words

/-- An instruction line that assembles adds its word at the current address, and the pass goes on
from the next address in the context after it. -/
theorem encodeFrom_cons_ok {pc : Nat} {ctx ctx' : Context} {words : Array Word} {line : Line}
    {rest : List Line} {inst : Instruction} (hs : line.statement = .instruction)
    (h : encodeLine line ctx = (.ok inst, ctx')) :
    encodeFrom pc ctx words (line :: rest) =
      encodeFrom (pc + 1) ctx' (words.push ⟨line.idx, pc, inst⟩) rest := by
  simp [encodeFrom, hs, h]

/-- An instruction line that fails stops the pass with its error. -/
theorem encodeFrom_cons_error {pc : Nat} {ctx ctx' : Context} {words : Array Word} {line : Line}
    {rest : List Line} {e : Error} (hs : line.statement = .instruction)
    (h : encodeLine line ctx = (.error e, ctx')) :
    encodeFrom pc ctx words (line :: rest) =
      { words, failure := some (line.fail e), context := ctx' } := by
  simp [encodeFrom, hs, h]

/-! ## The trace of the second pass -/

/-- What the second pass from context `ctx` at address `pc` made of the instruction lines `cl`:
a word for each line of a prefix, at consecutive addresses, each line resolved in the context
that the lines before it left; then either no line is left, or the next one is the first to
fail and its error is the one reported; and, at the end, the context the prefix left. -/
structure Trace (ctx : Context) (pc : Nat) (cl : List Line) (enc : Encoding) : Prop where
  size_le : enc.words.size ≤ cl.length
  word : ∀ j w, enc.words.toList[j]? = some w → ∃ line, cl[j]? = some line ∧
    w.idx = line.idx ∧ w.pc = pc + j ∧
    (encodeLine line (contextAfter ctx (cl.take j))).1 = .ok w.inst
  stop : ∀ line, cl[enc.words.size]? = some line → ∃ e,
    (encodeLine line (contextAfter ctx (cl.take enc.words.size))).1 = .error e ∧
    enc.failure = some (line.fail e)
  finish : enc.words.size = cl.length → enc.failure = none
  context : enc.context = contextAfter ctx (cl.take enc.words.size)

namespace Trace

variable {ctx ctx' : Context} {pc : Nat} {line : Line} {rest : List Line}

/-- A line that assembles puts its word in front of the trace of the lines after it. -/
theorem cons_ok {inst : Instruction} {enc : Encoding}
    (h : encodeLine line ctx = (.ok inst, ctx')) (t : Trace ctx' (pc + 1) rest enc) :
    Trace ctx pc (line :: rest) { enc with words := #[⟨line.idx, pc, inst⟩] ++ enc.words } := by
  have hsize : (#[(⟨line.idx, pc, inst⟩ : Word)] ++ enc.words).size = enc.words.size + 1 := by
    simp [Nat.add_comm]
  -- the context before line `n + 1` is the one the rest reaches after `n` of its lines
  have hctx : ∀ n, contextAfter ctx ((line :: rest).take (n + 1)) =
      contextAfter ctx' (rest.take n) := by
    intro n
    simp [h]
  refine ⟨?_, ?_, ?_, ?_, ?_⟩
  · rw [hsize]
    simpa using t.size_le
  · intro j w hw
    cases j with
    | zero =>
      simp only [Array.toList_append, List.cons_append, List.nil_append,
        List.getElem?_cons_zero, Option.some.injEq] at hw
      subst hw
      exact ⟨line, rfl, rfl, rfl, by simp [h]⟩
    | succ j =>
      simp only [Array.toList_append, List.cons_append, List.nil_append,
        List.getElem?_cons_succ] at hw
      obtain ⟨l, hl, hidx, hpc, henc⟩ := t.word j w hw
      exact ⟨l, by simpa using hl, hidx, by omega, by rw [hctx]; exact henc⟩
  · intro l hl
    rw [hsize] at hl ⊢
    rw [hctx]
    exact t.stop l (by simpa using hl)
  · intro hlen
    rw [hsize, List.length_cons] at hlen
    exact t.finish (by omega)
  · show enc.context = _
    rw [hsize, hctx]
    exact t.context

/-- A line that fails ends the trace: no word, its error, and the context as it was. -/
theorem cons_error {e : Error} (h : encodeLine line ctx = (.error e, ctx')) :
    Trace ctx pc (line :: rest) { words := #[], failure := some (line.fail e), context := ctx' } := by
  have hfail : (encodeLine line ctx).1 = .error e := by rw [h]
  have hctx : ctx' = ctx := by
    have := encodeLine_snd_of_error hfail
    rwa [h] at this
  refine ⟨by simp, by simp, ?_, by simp, by simp [hctx]⟩
  intro l hl
  simp only [List.size_toArray, List.length_nil, List.getElem?_cons_zero,
    Option.some.injEq] at hl
  subst hl
  exact ⟨e, by simp [h], rfl⟩

end Trace

theorem trace_encodeFrom_of_instructions {ctx : Context} {pc : Nat} {cl : List Line}
    (hcl : ∀ line ∈ cl, line.statement = .instruction) :
    Trace ctx pc cl (encodeFrom pc ctx #[] cl) := by
  induction cl generalizing ctx pc with
  | nil => exact ⟨by simp [encodeFrom], by simp [encodeFrom], by simp, fun _ => rfl, by simp [encodeFrom]⟩
  | cons line rest ih =>
    have hs : line.statement = .instruction := hcl line (by simp)
    have hrest : ∀ l ∈ rest, l.statement = .instruction := fun l hl => hcl l (by simp [hl])
    match h : encodeLine line ctx with
    | (.ok inst, ctx') =>
      rw [encodeFrom_cons_ok hs h, encodeFrom_eq_append]
      exact Trace.cons_ok h (ih hrest)
    | (.error e, ctx') =>
      rw [encodeFrom_cons_error hs h]
      exact Trace.cons_error h

/-- The second pass over any lines is traced by their instruction lines. -/
theorem trace_encodeFrom (ctx : Context) (pc : Nat) (lines : List Line) :
    Trace ctx pc (codeLines lines) (encodeFrom pc ctx #[] lines) := by
  rw [← encodeFrom_codeLines]
  exact trace_encodeFrom_of_instructions fun _ => statement_of_mem_codeLines

theorem Program.trace_encode (p : Program) :
    Trace (Context.ofLabels p.labels) 0 (codeLines p.lines) p.encode :=
  trace_encodeFrom _ _ _

/-! ## The second pass over a program -/

section Program

variable {p : Program}

/-- The context in which the second pass resolves the `k`-th instruction line of a program:
the one the instruction lines before it left. -/
def Program.contextBefore (p : Program) (k : Nat) : Context :=
  contextAfter (Context.ofLabels p.labels) ((codeLines p.lines).take k)

@[simp]
theorem Program.contextBefore_labels (p : Program) (k : Nat) :
    (p.contextBefore k).labels = p.labels := by
  simp [Program.contextBefore, Context.ofLabels]

/-- The `k`-th word is made from the `k`-th instruction line, at address `k`, in the context
that the instruction lines before it left. -/
theorem Program.encode_word (k : Nat) (hk : k < p.encode.words.size) :
    ∃ line, (codeLines p.lines)[k]? = some line ∧ p.encode.words[k].idx = line.idx ∧
      p.encode.words[k].pc = k ∧
      (encodeLine line (p.contextBefore k)).1 = .ok p.encode.words[k].inst := by
  obtain ⟨line, hl, hidx, hpc, henc⟩ :=
    p.trace_encode.word k p.encode.words[k] (by simp [hk])
  exact ⟨line, hl, hidx, by simpa using hpc, henc⟩

/-- The error the second pass stops at is that of the instruction line after its words, which
fails in the context that the lines before it left. -/
theorem Program.encode_failure {err : LineError} (h : p.encode.failure = some err) :
    ∃ line e, (codeLines p.lines)[p.encode.words.size]? = some line ∧
      (encodeLine line (p.contextBefore p.encode.words.size)).1 = .error e ∧
      err = line.fail e := by
  have hlt : p.encode.words.size < (codeLines p.lines).length := by
    refine Nat.lt_of_le_of_ne p.trace_encode.size_le fun heq => ?_
    simp [p.trace_encode.finish heq] at h
  obtain ⟨line, hl⟩ : ∃ line, (codeLines p.lines)[p.encode.words.size]? = some line :=
    ⟨_, List.getElem?_eq_getElem hlt⟩
  obtain ⟨e, he, hfail⟩ := p.trace_encode.stop line hl
  exact ⟨line, e, hl, he, by simpa [hfail] using h.symm⟩

end Program

/-! ## Both passes count the same lines -/

/-- The addresses of a program's two passes, as its lines alone determine them. -/
structure AddressAgreement (p : Program) : Prop where
  /-- Both passes count exactly the lines whose code is neither empty nor a well-formed label. -/
  counted : ∀ line ∈ p.lines, line ∈ codeLines p.lines ↔
    line.code ≠ "" ∧ ∀ name, Symbol.isSymbol name = true → line.code ≠ "(" ++ name ++ ")"
  /-- The `k`-th word is the `k`-th counted line's, at address `k`. -/
  word : ∀ k (hk : k < p.encode.words.size), p.encode.words[k].pc = k ∧
    ∃ line, (codeLines p.lines)[k]? = some line ∧ p.encode.words[k].idx = line.idx
  /-- The error, if any, belongs to the counted line after the words. -/
  failure : ∀ err, p.encode.failure = some err →
    ∃ line e, (codeLines p.lines)[p.encode.words.size]? = some line ∧ err = line.fail e
  /-- Each label is bound to the number of counted lines before its declaration. -/
  label : ∀ name a, (name, a) ∈ p.labels.toList → ∃ before line after,
    p.lines = before ++ line :: after ∧ line.statement = .label name ∧
    a.val = (codeLines before).length
  /-- A load of a label, declared before or after the load, loads the address of the first
  counted line after the declaration: the counted lines from that address on are those after
  it, so the address is their number when none follows. -/
  load_label : ∀ k (hk : k < p.encode.words.size) use name before decl after,
    (codeLines p.lines)[k]? = some use → use.code = "@" ++ name →
    p.lines = before ++ decl :: after → decl.statement = .label name →
    ∃ a : Address, p.encode.words[k].inst = .load a ∧ a.val = (codeLines before).length ∧
      (codeLines p.lines).drop a.val = codeLines after

/-- Every program that passes the first pass has its addresses agree between the passes. -/
theorem two_passes_agree {source : String} {p : Program} (h : Program.read source = .ok p) :
    AddressAgreement p := by
  obtain ⟨hlines, hlabels⟩ := Program.read_eq_ok h
  refine ⟨?_, ?_, ?_, fun name a hmem => mem_toList_of_collectLabels hlabels hmem, ?_⟩
  · intro line hl
    have hs := statement_of_mem_readLines (hlines ▸ hl)
    simp [codeLines, hl, hs, Statement.classify_eq_instruction_iff]
  · intro k hk
    obtain ⟨line, hl, hidx, hpc, -⟩ := p.encode_word k hk
    exact ⟨hpc, line, hl, hidx⟩
  · intro err herr
    obtain ⟨line, e, hl, -, rfl⟩ := p.encode_failure herr
    exact ⟨line, e, hl, rfl⟩
  · intro k hk use name before decl after huse hcode hsplit hdecl
    obtain ⟨line, hl, -, -, henc⟩ := p.encode_word k hk
    obtain rfl : line = use := Option.some.inj (hl.symm.trans huse)
    have hmem : decl ∈ p.lines := by simp [hsplit]
    have hsym : Symbol.isSymbol name = true := by
      rw [statement_of_mem_readLines (hlines ▸ hmem)] at hdecl
      exact Statement.isSymbol_of_classify_eq_label hdecl
    have hpre := predefined?_eq_none_of_collectLabels hlabels ⟨decl, hmem, hdecl⟩
    obtain ⟨a, hget, hval⟩ := get?_of_collectLabels hsplit hdecl hlabels
    refine ⟨a, ?_, hval, ?_⟩
    · rw [encodeLine_load_label hcode hsym hpre (by simpa using hget)] at henc
      exact (Except.ok.inj henc).symm
    · have hnot : decl.statement ≠ .instruction := by simp [hdecl]
      rw [hsplit, codeLines_append, codeLines_cons_of_ne after hnot, hval]
      exact List.drop_left

/-- The agreement at a program that loads a label declared further down, after a blank line, a
comment line and a malformed label that takes an address. -/
theorem two_passes_agree_forward_label :
    Program.read "@END\n\n// note\n(1X)\n(END)\n0;JMP" =
        .ok ⟨readLines "@END\n\n// note\n(1X)\n(END)\n0;JMP", Table.empty.insert "END" 2⟩ ∧
      AddressAgreement
        ⟨readLines "@END\n\n// note\n(1X)\n(END)\n0;JMP", Table.empty.insert "END" 2⟩ := by
  have hsplit : Text.splitLines "@END\n\n// note\n(1X)\n(END)\n0;JMP" =
      ["@END", "", "// note", "(1X)", "(END)", "0;JMP"] := by
    decide +kernel
  have h : Program.read "@END\n\n// note\n(1X)\n(END)\n0;JMP" =
      .ok ⟨readLines "@END\n\n// note\n(1X)\n(END)\n0;JMP", Table.empty.insert "END" 2⟩ := by
    apply Program.read_of_collectLabels
    rw [readLines, hsplit]
    simp only [List.mapIdx_cons, List.mapIdx_nil]
    rw [collectLabels, collectLabelsFrom_cons_instruction _ (by decide +kernel) (by decide),
      collectLabelsFrom_cons_blank _ (by decide +kernel),
      collectLabelsFrom_cons_blank _ (by decide +kernel),
      collectLabelsFrom_cons_instruction _ (by decide +kernel) (by decide),
      collectLabelsFrom_cons_fresh "END" _ (by decide +kernel) (by decide +kernel) (by simp)
        (by decide),
      collectLabelsFrom_cons_instruction _ (by decide +kernel) (by decide)]
    rfl
  exact ⟨h, two_passes_agree h⟩

end HackAsm
