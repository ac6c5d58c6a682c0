/-!
# Errors

Everything that can stop the assembler is a constructor of `Error`, carrying the text it is
about: the offending field, operand, name or path. `Error.message` gives the sentence the user
reads and `Error.code` the negative number the process exits with. An error raised while
reading a source line travels as a `LineError`, which adds the line's index and its text as
written, so that a diagnostic can show where it came from.
-/

set_option autoImplicit false

namespace HackAsm

/-- Why the assembler stopped. -/
inductive Error where
  /-- The command line did not name exactly one input. -/
  | usage (detail : String)
  /-- The input could not be read as text. -/
  | fileOpen (path : String)
  /-- An output file could not be created. -/
  | fileCreate (path : String)
  /-- Writing an output file failed. -/
  | fileWrite (path : String)
  /-- Writing the symbol table failed while it was being written out. -/
  | symbolDump (path : String)
  /-- An operand is neither a number nor a symbol. -/
  | undefinedReference (operand : String)
  /-- A computation field names no computation. -/
  | unresolvedComp (field : String)
  /-- A jump field names no condition. -/
  | unresolvedJump (field : String)
  /-- A destination field names no destination. -/
  | unresolvedDest (field : String)
  /-- A number, label or instruction does not fit in fifteen bits. -/
  | addressOutOfRange (text : String)
  /-- A label is declared twice, or has a predefined name. -/
  | redefinedLabel (name : String)
  deriving DecidableEq, Repr

namespace Error

/-- Quotes a text between backticks. -/
def quoted (s : String) : String :=
  "`" ++ s ++ "`"

/-- The sentence shown to the user. -/
def message : Error → String
  | usage detail => "Usage: " ++ detail
  | fileOpen path => "Failed to open file: " ++ path
  | fileCreate path => "Failed to create file: " ++ path
  | fileWrite path => "Failed to write file: " ++ path
  | symbolDump path => "Failed to write symbol table: " ++ path
  | undefinedReference s => "Undefined reference: " ++ quoted s
  | unresolvedComp s => "Unresolved computation: " ++ quoted s
  | unresolvedJump s => "Unresolved jump: " ++ quoted s
  | unresolvedDest s => "Unresolved destination: " ++ quoted s
  | addressOutOfRange s => "Address out of range: " ++ quoted s ++ " does not fit in 15 bits"
  | redefinedLabel s => "Re-defined label: " ++ quoted s

/-- The process exit code: negative, one per kind, with the three output failures sharing one. -/
def code : Error → Int
  | usage _ => -1
  | fileOpen _ => -2
  | fileCreate _ | fileWrite _ | symbolDump _ => -3
  | undefinedReference _ => -4
  | unresolvedComp _ => -5
  | unresolvedJump _ => -6
  | addressOutOfRange _ => -7
  | redefinedLabel _ => -8
  | unresolvedDest _ => -9

end Error

/-- An error raised by one source line: its index from zero and its text as written. -/
structure LineError where
  idx : Nat
  raw : String
  error : Error
  deriving DecidableEq, Repr

/-- `line N: message`, with lines numbered from one. -/
def LineError.message (e : LineError) : String :=
  "line " ++ toString (e.idx + 1) ++ ": " ++ e.error.message

end HackAsm
