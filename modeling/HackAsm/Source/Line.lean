import HackAsm.Error
import HackAsm.Machine.Symbol
import HackAsm.Text.WhiteSpace

/-!
# Source lines

A source line is read in three parts. Its comment is whatever follows the first `//`, trimmed.
Its code is what stands before that `//`, with every white-space character removed wherever it
stands, so `D = D + A` and `D=D+A` are one code. Its statement classifies the code: no code is
a blank line, `(name)` with a well-formed symbol declares a label, and anything else is an
instruction, which takes one ROM word even when it does not assemble.
-/

set_option autoImplicit false

namespace HackAsm

/-- The characters before the first `//`. -/
def beforeComment : List Char → List Char
  | [] => []
  | '/' :: '/' :: _ => []
  | c :: rest => c :: beforeComment rest

/-- The characters after the first `//`, if there is one. -/
def afterComment : List Char → Option (List Char)
  | [] => none
  | '/' :: '/' :: rest => some rest
  | _ :: rest => afterComment rest

/-- The code of a line: before the first `//`, without white space; `none` when nothing is left. -/
def normalize (raw : String) : Option String :=
  match (beforeComment raw.toList).filter (fun c => !Text.isWhiteSpace c) with
  | [] => none
  | cs => some (String.ofList cs)

/-- The comment of a line: after the first `//`, trimmed; `none` when there is no `//`. -/
def commentOf (raw : String) : Option String :=
  (afterComment raw.toList).map fun cs => String.ofList (Text.trimChars cs)

/-- What a line of code does. -/
inductive Statement where
  /-- No code. -/
  | blank
  /-- `(name)`: binds `name` to the address of the next instruction. -/
  | label (name : String)
  /-- Anything else: one instruction word. -/
  | instruction
  deriving DecidableEq, Repr

/-- The name between the parentheses of `(name)`. -/
def labelName? (cs : List Char) : Option (List Char) :=
  match cs with
  | '(' :: rest => if rest.getLast? = some ')' then some rest.dropLast else none
  | _ => none

/-- Classifies a line's code. -/
def Statement.classify (code : String) : Statement :=
  match code.toList with
  | [] => .blank
  | cs =>
    match labelName? cs with
    | some name => if Symbol.isSymbolChars name then .label (String.ofList name) else .instruction
    | none => .instruction

/-- A source line with its parts. -/
structure Line where
  /-- The index of the line, from zero. -/
  idx : Nat
  /-- The line as written. -/
  raw : String
  /-- The code, `""` for none. -/
  code : String
  comment : Option String
  statement : Statement
  deriving Repr

/-- Reads the line with index `idx`. -/
def Line.read (idx : Nat) (raw : String) : Line :=
  let code := (normalize raw).getD ""
  { idx, raw, code, comment := commentOf raw, statement := Statement.classify code }

/-- The line's number, from one. -/
def Line.no (line : Line) : Nat :=
  line.idx + 1

/-- An error raised by this line. -/
def Line.fail (line : Line) (error : Error) : LineError :=
  { idx := line.idx, raw := line.raw, error }

example : normalize "  D = D + A  // add" = some "D=D+A" := by decide
example : normalize "0;JMP//x//y" = some "0;JMP" := by decide
example : commentOf "@2 // a // b" = some "a // b" := by decide
example : Statement.classify "(1L)" = .instruction := by decide
example : Statement.classify "(LOOP)" = .label "LOOP" := by decide

end HackAsm
