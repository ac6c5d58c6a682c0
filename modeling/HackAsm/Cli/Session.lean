import HackAsm.Listing
import HackAsm.Symbols.Yaml
import HackAsm.Cli.Arguments
import HackAsm.Cli.Host
import HackAsm.Cli.Path
import HackAsm.Text.Escapes

/-!
# One run of the assembler

A run prints a banner and reads its arguments. Asked to assemble, it reads the input, creates
the output file, and runs the first pass; it then writes the word of each instruction as a line
of binary digits, stopping at the first line that does not assemble, after sending on the words
before it. With `-s` it writes the symbol table as YAML, and with `-d` it prints the listing.
A failing line is shown with its diagnostic. The run ends with `done` or with `failed` and the
error, and exits with the error's code, or zero. A refused command line is explained on standard
error, which is not a terminal: the complaint reaches it through `Escapes.strip`, which removes
its emphasis and whatever does not print in the arguments it quotes.

The output file is created before the first pass, so a program whose labels clash leaves an
empty output file behind.
-/

set_option autoImplicit false

namespace HackAsm.Cli

variable {m : Type → Type} [Monad m] [Host m]

/-- Prints one line. -/
def say (line : String) : ExceptT Error m Unit :=
  liftM (Host.putOut (line ++ "\n") : m Unit)

/-- Prints several lines. -/
def sayAll (lines : List String) : ExceptT Error m Unit :=
  lines.forM say

/-- Writes each word's binary numeral as a line through the buffer. -/
def writeWords (b : Buffer) : List Word → ExceptT Error m Buffer
  | [] => pure b
  | w :: ws => do
    match ← liftM (b.write (w.inst.binary ++ "\n") : m (Option Buffer)) with
    | some b' => writeWords b' ws
    | none => throw (.fileWrite b.path)

/-- Writes the symbol table to `path`. -/
def writeSymbols (path : String) (table : SymbolTable) : ExceptT Error m Unit := do
  say ("  > " ++ path)
  unless ← liftM (Host.createFile path : m Bool) do throw (.fileCreate path)
  match ← liftM (({ path } : Buffer).write table.toYaml : m (Option Buffer)) with
  | none => throw (.symbolDump path)
  | some b => unless ← liftM (b.flush : m Bool) do throw (.fileWrite path)

/-- Assembles the input of an invocation into its output files. -/
def assembleFiles (inv : Invocation) : ExceptT Error m Unit := do
  let output := inv.output.getD (withExtension inv.input "hack")
  say "1. Read File & Collect Labels"
  say ("  < " ++ inv.input)
  let some source ← liftM (Host.readText inv.input : m (Option String))
    | throw (.fileOpen inv.input)
  unless ← liftM (Host.createFile output : m Bool) do throw (.fileCreate output)
  let program ← match Program.read source with
    | .ok p => pure p
    | .error e => do
      sayAll (e.diagnostic inv.input)
      throw e.error
  say ("  - found #" ++ toString program.labels.size ++ " labels")
  say "2. Resolve Symbols & Generate Binary"
  say ("  > " ++ output)
  let encoding := program.encode
  let b ← writeWords { path := output } encoding.words.toList
  unless ← liftM (b.flush : m Bool) do throw (.fileWrite output)
  if let some e := encoding.failure then
    sayAll (e.diagnostic inv.input)
    throw e.error
  say ("  - wrote #" ++ toString encoding.words.size ++ " words, allocated #" ++
    toString encoding.context.vars.size ++ " variables")
  if let some path := inv.symbols then
    writeSymbols path encoding.context.symbols
  if inv.dump then
    sayAll (listing inv.input program.lines encoding.words.toList)

/-- The last line of a run and its exit code. -/
def conclude (result : Except Error Unit) : m Int := do
  match result with
  | .ok () =>
    Host.putOut (Ansi.paint (Ansi.strong .green) "done" ++ ": Files outputted successfully!\n")
    return 0
  | .error e =>
    Host.putOut (Ansi.paint (Ansi.strong .red) "failed" ++ ": " ++ e.message ++ " (code " ++
      toString e.code ++ ")\n")
    return e.code

/-- A whole run with the arguments after the program name; the result is the exit code. The
`author` is the one the program is built with, which the help names. -/
def run (author : String) (args : List String) : m Int := do
  Host.putOut "Hack Assembler\n"
  match readArguments args with
  | .showHelp => Host.putOut (helpText author); return 0
  | .showVersion => Host.putOut versionText; return 0
  | .refuse text =>
    Host.putErr (Escapes.strip text)
    conclude (.error (.usage "expected exactly one input file"))
  | .assemble inv => conclude (← (assembleFiles inv).run)

/-- The exit status a code gives: the code modulo 256. -/
def exitStatus (code : Int) : Nat :=
  (code % 256).toNat

end HackAsm.Cli
