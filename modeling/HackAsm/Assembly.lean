import HackAsm.Source.Code
import HackAsm.Symbols.Labels
import HackAsm.Symbols.Context
import HackAsm.Text.Lines

/-!
# Assembling a program

Assembly takes two passes over the lines of a source text. The first binds every label to the
address of the instruction after it (`collectLabels`). The second reads the instruction lines
in order, resolves their symbols in a context that starts with the labels and no variables, and
gives each a word at the next address. The second pass stops at the first line that does not
assemble: the words before it are kept, that line's error is reported, and the context is left
as the earlier lines made it.

`encodeFrom` runs the second pass to its end. `Encoder.next` takes it one step at a time, as a
caller that reads the words one by one sees it: each step yields the next word or the error,
and every step after an error, or after the last line, yields nothing.

An `Assembler` keeps the symbol context between runs of the second pass: each run starts at
address zero in the context the runs before it left.
-/

set_option autoImplicit false

namespace HackAsm

/-- One encoded instruction, with the index of its line and its ROM address. -/
structure Word where
  idx : Nat
  pc : Nat
  inst : Instruction
  deriving DecidableEq, Repr

/-- The lines of a source text. -/
def readLines (source : String) : List Line :=
  (Text.splitLines source).mapIdx Line.read

/-- A program after the first pass: its lines and its labels. -/
structure Program where
  lines : List Line
  labels : Table

/-- Reads a source text and runs the first pass. -/
def Program.read (source : String) : Except LineError Program := do
  let lines := readLines source
  let labels ← collectLabels lines
  pure { lines, labels }

/-- The instruction a code stands for, with its symbol resolved in `ctx`, and the context after. -/
def Code.resolve : Code → Context → Except Error Instruction × Context
  | .address (.literal v), ctx => (.ok (.load v), ctx)
  | .address (.symbol name), ctx =>
    let (result, ctx') := ctx.resolve name
    (result.map .load, ctx')
  | .compute input comp dest jump, ctx => (.ok (.compute input comp dest jump), ctx)

/-- Reads and resolves one instruction line, with the context after. -/
def encodeLine (line : Line) (ctx : Context) : Except Error Instruction × Context :=
  match Code.parse line.code with
  | .ok code => code.resolve ctx
  | .error e => (.error e, ctx)

/-- What the second pass produced: the words, the error it stopped at, and the final context. -/
structure Encoding where
  words : Array Word
  failure : Option LineError
  context : Context

/-- The second pass from address `pc`, after the words `words`. -/
def encodeFrom (pc : Nat) (ctx : Context) (words : Array Word) : List Line → Encoding
  | [] => { words, failure := none, context := ctx }
  | line :: rest =>
    match line.statement with
    | .instruction =>
      match encodeLine line ctx with
      | (.ok inst, ctx') => encodeFrom (pc + 1) ctx' (words.push ⟨line.idx, pc, inst⟩) rest
      | (.error e, ctx') => { words, failure := some (line.fail e), context := ctx' }
    | _ => encodeFrom pc ctx words rest

/-- The second pass over a program. -/
def Program.encode (p : Program) : Encoding :=
  encodeFrom 0 (Context.ofLabels p.labels) #[] p.lines

/-- The second pass as an iterator, between two steps: the lines not read yet, the symbol
context, the address of the next word, and whether a line has failed. -/
structure Encoder where
  lines : List Line
  context : Context
  pc : Nat
  halted : Bool

/-- The iterator over the second pass of a program, before its first step. -/
def Program.encoder (p : Program) : Encoder :=
  { lines := p.lines, context := Context.ofLabels p.labels, pc := 0, halted := false }

/-- One step of the iterator: the word or the error of the next instruction line, and the state
after it. Once the lines are exhausted, or a line has failed, a step yields nothing. The address
advances for a failing line too. -/
def Encoder.next (e : Encoder) : Option (Except LineError Word) × Encoder :=
  if e.halted then (none, e)
  else
    match e.lines.dropWhile (·.statement != .instruction) with
    | [] => (none, { e with lines := [] })
    | line :: rest =>
      match encodeLine line e.context with
      | (.ok inst, ctx) =>
        (some (.ok ⟨line.idx, e.pc, inst⟩), { lines := rest, context := ctx, pc := e.pc + 1, halted := false })
      | (.error err, ctx) =>
        (some (.error (line.fail err)), { lines := rest, context := ctx, pc := e.pc + 1, halted := true })

/-- An assembler after its first pass: the lines of the program and the symbol context that
every run of its second pass reads and extends. A run shares this context rather than copying
it, so what a run allocates stays allocated when the run is dropped, finished or not, and the
next run starts from it, again at address zero. -/
structure Assembler where
  lines : List Line
  idents : Context

/-- The assembler of a source text: its lines, and the labels of its first pass with no
variables yet. -/
def Assembler.new (source : String) : Except LineError Assembler := do
  let p ← Program.read source
  pure { lines := p.lines, idents := Context.ofLabels p.labels }

/-- A new run of the second pass: from the first line, at address zero, in the assembler's
context. -/
def Assembler.encode (asm : Assembler) : Encoder :=
  { lines := asm.lines, context := asm.idents, pc := 0, halted := false }

/-- The assembler once a run of its second pass is dropped: it keeps the context the run
reached. -/
def Assembler.release (asm : Assembler) (run : Encoder) : Assembler :=
  { asm with idents := run.context }

/-- The words of a source text, or the first line that fails in either pass. -/
def assemble (source : String) : Except LineError (Array Word) := do
  let p ← Program.read source
  let e := p.encode
  match e.failure with
  | some err => .error err
  | none => .ok e.words

/-- The machine words of a source text as binary numerals. -/
def assembleToStrings (source : String) : Except LineError (List String) :=
  (assemble source).map fun words => words.toList.map fun w => w.inst.binary

end HackAsm
