/-!
# Lines of a text

A text is cut into lines at each line feed. The line feed ends its line and is not part of it,
and a carriage return just before a line feed goes with it, so `\r\n` ends a line as well.
Text after the last line feed is one more line when it is not empty; a carriage return at the
very end of such a line, with no line feed after it, stays in the line.
-/

set_option autoImplicit false

namespace HackAsm.Text

/-- Drops one carriage return at the end of a line that a line feed ended. -/
def dropReturn (cs : List Char) : List Char :=
  if cs.getLast? = some '\r' then cs.dropLast else cs

/-- The lines of a text, without their line ends. -/
def splitLines (s : String) : List String :=
  match (s.toList.splitOn '\n').reverse with
  | [] => []
  | last :: ended =>
    (ended.reverse.map fun cs => String.ofList (dropReturn cs)) ++
      (if last.isEmpty then [] else [String.ofList last])

example : splitLines "" = [] := by decide
example : splitLines "a\r\nb\n\n" = ["a", "b", ""] := by decide
example : splitLines "a\nb\r" = ["a", "b\r"] := by decide

end HackAsm.Text
