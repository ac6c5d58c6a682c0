import HackAsm.Assembly

/-!
# The listing and the diagnostic

The listing shows each source line next to what it became: an instruction line with its
address in hexadecimal and its word in binary, then the instruction in colour; a line that did
not assemble, and every instruction line after it, with `????` and a bold red bar in place of
the word and its code as read. Labels and blank lines have an empty left column. Every row
shows the line number and the line's comment. A ruled header with the file name and a ruled
footer frame the rows.

The diagnostic of a failing line is five rows in the style of a compiler message: the error,
the file and line, and the line as written between two rules.
-/

set_option autoImplicit false

namespace HackAsm

/-- `n` copies of `c`. -/
def repeatChar (c : Char) (n : Nat) : String :=
  String.ofList (List.replicate n c)

namespace Listing

/-- The header rule with the file name; the rule after the name shortens as the name grows. -/
def header (path : String) : String :=
  repeatChar '-' 24 ++ "+------[" ++ path ++ "]" ++ repeatChar '-' (45 - path.utf8ByteSize)

/-- The footer rule. -/
def footer : String :=
  repeatChar '-' 24 ++ "+" ++ repeatChar '-' 53

/-- A line's comment, faint, or nothing. -/
def commentPart (line : Line) : String :=
  match line.comment with
  | some c => Ansi.paint Ansi.faint ("// " ++ c)
  | none => ""

/-- The row of one line, given the word it became, if any. -/
def row (line : Line) (word : Option Word) : String :=
  let no := Numeral.natRight 4 line.no
  match line.statement, word with
  | .instruction, some w =>
    "[" ++ Numeral.hex4 w.pc ++ "] " ++ w.inst.binary ++ " | " ++ no ++ ":   " ++
      w.inst.highlight ++ " " ++ commentPart line
  | .instruction, none =>
    "[????] " ++ Ansi.paint (Ansi.strong .red) (repeatChar '!' 16) ++ " | " ++ no ++ ":   " ++
      line.code ++ " " ++ commentPart line
  | .label name, _ =>
    repeatChar ' ' 24 ++ "| " ++ no ++ ": " ++ Ansi.paint (Ansi.fg .green) ("(" ++ name ++ ")") ++
      " " ++ commentPart line
  | .blank, _ => repeatChar ' ' 24 ++ "| " ++ no ++ ": " ++ commentPart line

/-- The word shown on a line. The words are gathered by the index of their line, a later word
taking the place of an earlier one with the same index, so a line shows the last word with its
index. -/
def wordOf (ws : List Word) (line : Line) : Option Word :=
  ws.reverse.find? fun w => w.idx == line.idx

end Listing

/-- The listing of `lines`, given the words they produced: each line's row shows the word with
the line's index. -/
def listing (path : String) (lines : List Line) (words : List Word) : List String :=
  Listing.header path :: lines.map (fun line => Listing.row line (Listing.wordOf words line)) ++
    [Listing.footer]

/-- The diagnostic rows of a failing line in file `file`. -/
def LineError.diagnostic (e : LineError) (file : String) : List String :=
  let no := toString (e.idx + 1)
  [Ansi.paint (Ansi.strong .red) "error" ++ ": " ++ e.error.message,
    "     " ++ Ansi.paint (Ansi.fg .blue) "-->" ++ " " ++ Ansi.paint Ansi.underlined (file ++ ":" ++ no),
    "      " ++ Ansi.paint (Ansi.fg .blue) "|",
    " " ++ Ansi.paint (Ansi.fg .blue) (Numeral.alignRight 4 no ++ " |") ++ " " ++ e.raw,
    "      " ++ Ansi.paint (Ansi.fg .blue) "|"]

end HackAsm
