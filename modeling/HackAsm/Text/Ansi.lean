/-!
# Terminal colours

The listing, the diagnostics and the final status line are coloured with SGR escape sequences
(`ESC [ n m`). Coloured text is a list of runs, each with its style. An escape sequence is
written only where the style changes from one run to the next, and the style goes back to
plain after the last run; so `@` in red followed by `7` in yellow is `ESC[31m@ESC[33m7ESC[39m`,
with no reset between the two colours.

Within one change the colour comes first, then the weight (bold or dim), then underlining.

Complaints about the command line mark their parts differently: each part is enclosed on its
own, between the sequences that set its style (effects first, then the colour) and the one that
resets every style, `ESC[0m`.
-/

set_option autoImplicit false

namespace HackAsm.Ansi

/-- The foreground colours in use. -/
inductive Colour where
  | red
  | green
  | yellow
  | blue
  deriving DecidableEq, Repr

/-- The SGR parameter that selects a colour. -/
def Colour.code : Colour → Nat
  | .red => 31
  | .green => 32
  | .yellow => 33
  | .blue => 34

/-- How a run of text looks. The default is plain text. -/
structure Style where
  colour : Option Colour := none
  bold : Bool := false
  dim : Bool := false
  underline : Bool := false
  deriving DecidableEq, Repr

/-- Plain text. -/
def plain : Style := {}

/-- Text in one colour. -/
def fg (c : Colour) : Style := { colour := some c }

/-- Bold text in one colour. -/
def strong (c : Colour) : Style := { colour := some c, bold := true }

/-- Faint text. -/
def faint : Style := { dim := true }

/-- Underlined text. -/
def underlined : Style := { underline := true }

/-- The escape sequence `ESC [ n m`. -/
def sgr (n : Nat) : String :=
  "\x1b[" ++ toString n ++ "m"

/-- The escape sequences that turn style `s` into style `t`: colour first, then weight, then
underlining. Turning bold or faint off resets both, so the weight `t` keeps is set again. -/
def Style.change (s t : Style) : String :=
  let colour := if s.colour = t.colour then "" else sgr ((t.colour.map Colour.code).getD 39)
  let off := (s.bold && !t.bold) || (s.dim && !t.dim)
  let weight := (if off then sgr 22 else "") ++
    (if t.bold && (off || !s.bold) then sgr 1 else "") ++
    (if t.dim && (off || !s.dim) then sgr 2 else "")
  let line := if s.underline = t.underline then "" else sgr (if t.underline then 4 else 24)
  colour ++ weight ++ line

/-- Runs written after text in style `s`, ending plain. -/
def renderFrom : Style → List (Style × String) → String
  | s, [] => s.change plain
  | s, (t, text) :: rest => s.change t ++ text ++ renderFrom t rest

/-- Runs of styled text, starting and ending plain. -/
def render (runs : List (Style × String)) : String :=
  renderFrom plain runs

/-- One run of text in one style. -/
def paint (s : Style) (text : String) : String :=
  render [(s, text)]

/-- The sequences that set a style from plain: bold, faint and underlined, then the colour. -/
def Style.openFromPlain (s : Style) : String :=
  (if s.bold then sgr 1 else "") ++ (if s.dim then sgr 2 else "") ++
    (if s.underline then sgr 4 else "") ++ (s.colour.map fun c => sgr c.code).getD ""

/-- Text enclosed in its style: the style set, the text, and every style reset. Plain text is
left alone. -/
def enclose (s : Style) (text : String) : String :=
  if s = plain then text else s.openFromPlain ++ text ++ sgr 0

example : render [(fg .red, "@"), (fg .yellow, "7")] = "\x1b[31m@\x1b[33m7\x1b[39m" := by decide
example : paint (strong .red) "failed" = "\x1b[31m\x1b[1mfailed\x1b[39m\x1b[22m" := by decide
example : enclose (strong .red) "error:" = "\x1b[1m\x1b[31merror:\x1b[0m" := by decide

end HackAsm.Ansi
