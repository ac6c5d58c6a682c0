import HackAsm.Text.Similarity
import HackAsm.Text.Ansi

/-!
# The command line

The assembler takes one input path and five options: `-o PATH` (`--output`), `-d`
(`--dump`), `-s PATH` (`--symbols`), and `-h` (`--help`) and `-V` (`--version`), which print and
stop. Arguments are read left to right:

* `--name=value` and `--name value` give a long option its value; a flag takes no `=value`.
* `-x` may be followed by more short flags (`-ds`), and a short option takes the rest of its
  argument as its value (`-sS.yaml`, `-s=S.yaml`) or else the next argument.
* `--` ends the options: every later argument is positional. An option still waiting for its
  value stays pending, so a later positional argument is either the input, which first records
  that option and finds it without a value, or one too many, refused as such.
* An option's value or the input is recorded when the next argument that is not its value
  arrives, or at the end; so a missing value is reported there, and an option given twice is
  reported when its second value is recorded.

Anything else is refused with a message in the usual form: what is wrong, possibly a tip, the
usage line, and a pointer to `--help`. An unknown long option draws the most similar known one
as a tip, when one is close enough. It first records what is pending without a complaint: an
option without its value is dropped, and an option given twice loses its earlier record too.

The usage line depends on the complaint:

* after an unknown long option, the options recorded, then the suggested one, then the input
  (`hasm --output <OUTPUT> <INPUT>`), or just the input when only the input was recorded
  (`hasm <INPUT>`);
* after a flag given a value, that flag and the input (`hasm --dump <INPUT>`). Once any argument
  has been recorded, it is instead the other options used and then the assembler's own arguments
  as one group (`hasm --help <INPUT|--output <OUTPUT>|--dump|--symbols <SYMBOLS>>`);
* when the input is missing, the options given and the input;
* otherwise, and whenever nothing would be listed, the general form `hasm [OPTIONS] <INPUT>`.

A complaint marks its parts with escape sequences: the word `error:` in bold red, the arguments
it quotes in bold yellow, tips and what they suggest in green, option names in bold, and the
`Usage:` heading in bold and underlined. The reader of a complaint decides whether they show.
-/

set_option autoImplicit false

namespace HackAsm.Cli

/-- The program's name on the command line. -/
def programName : String := "hasm"

/-- The program's version. -/
def programVersion : String := "0.1.0"

/-- The options besides the input. -/
inductive Flag where
  | output
  | dump
  | symbols
  | help
  | version
  deriving DecidableEq, Repr

namespace Flag

/-- Every option, in the order the help lists them. -/
def all : List Flag :=
  [output, dump, symbols, help, version]

/-- The one-letter spelling after `-`. -/
def short : Flag → Char
  | output => 'o'
  | dump => 'd'
  | symbols => 's'
  | help => 'h'
  | version => 'V'

/-- The long spelling after `--`. -/
def long : Flag → String
  | output => "output"
  | dump => "dump"
  | symbols => "symbols"
  | help => "help"
  | version => "version"

/-- The name of the option's value, for options that take one. -/
def valueName : Flag → Option String
  | output => some "OUTPUT"
  | symbols => some "SYMBOLS"
  | _ => none

/-- What the option does, as the help says it. -/
def about : Flag → String
  | output => "Output file [default: input path with `.hack` extension]"
  | dump => "Dump assembly listing"
  | symbols => "Write the symbol table as YAML"
  | help => "Print help"
  | version => "Print version"

/-- Whether the option takes a value. -/
def takesValue (f : Flag) : Bool :=
  f.valueName.isSome

/-- How messages name the option: `--output <OUTPUT>`, `--dump`. -/
def display (f : Flag) : String :=
  "--" ++ f.long ++ (match f.valueName with
    | some v => " <" ++ v ++ ">"
    | none => "")

end Flag

/-- An argument of the command line: the input or an option. -/
inductive Arg where
  | input
  | flag (f : Flag)
  deriving DecidableEq, Repr

/-- How messages name an argument. -/
def Arg.display : Arg → String
  | .input => "<INPUT>"
  | .flag f => f.display

/-- Whether the argument must come with a value. -/
def Arg.needsValue : Arg → Bool
  | .input => true
  | .flag f => f.takesValue

/-- The assembler's own arguments, the input, `-o`, `-d` and `-s`, as opposed to `-h` and `-V`,
which only print. -/
def ownArgs : List Arg :=
  [.input, .flag .output, .flag .dump, .flag .symbols]

/-- How a usage line names an argument inside the group of the assembler's own arguments. -/
def Arg.inGroup : Arg → String
  | .input => "INPUT"
  | .flag f => f.display

/-- The assembler's own arguments as one group: `<INPUT|--output <OUTPUT>|--dump|--symbols <SYMBOLS>>`. -/
def ownGroup : String :=
  "<" ++ "|".intercalate (ownArgs.map Arg.inGroup) ++ ">"

/-- What the command line asks for. -/
structure Invocation where
  input : String
  output : Option String := none
  dump : Bool := false
  symbols : Option String := none
  deriving DecidableEq, Repr

/-- The outcome of reading the command line. -/
inductive Request where
  | assemble (inv : Invocation)
  | showHelp
  | showVersion
  /-- The command line is refused; the text is the complaint for standard error. -/
  | refuse (complaint : String)
  deriving DecidableEq, Repr

/-- Why reading stopped before the end. -/
inductive Stop where
  | help
  | version
  | complaint (text : String)

/-- The reader's state between arguments. -/
structure Reading where
  /-- The arguments recorded so far, in order, with their values. -/
  given : List (Arg × Option String) := []
  /-- The argument waiting to be recorded, with the values it has so far. -/
  pending : Option (Arg × List String) := none
  /-- Whether the pending option still waits for its value. -/
  wantsValue : Bool := false
  /-- Whether the input has been seen. -/
  inputSeen : Bool := false
  /-- Whether `--` has been seen. -/
  afterEscape : Bool := false
  /-- Whether an argument has ever been recorded. From then on the usage line after a flag
  given a value names the assembler's own arguments as a group. -/
  grouped : Bool := false

/-- The general usage line. -/
def generalUsage : String :=
  programName ++ " [OPTIONS] <INPUT>"

/-- The options among the arguments used, each once, in order of first use. -/
def optionsOf (used : List Arg) : List String :=
  (used.filterMap fun
    | .flag f => some f.display
    | .input => none).eraseDups

/-- The usage line for the arguments used so far: the options among them, then the input. -/
def usageFor (used : List Arg) : String :=
  if used.isEmpty then generalUsage
  else String.join ((programName :: optionsOf used ++ ["<INPUT>"]).intersperse " ")

/-- The usage line when the assembler's own arguments are used as a group: the other options
used, then the group. -/
def groupUsage (used : List Arg) : String :=
  String.join ((programName :: optionsOf (used.filter (!ownArgs.contains ·)) ++ [ownGroup]).intersperse " ")

/-- How a complaint marks the word `error:`. -/
def errorStyle : Ansi.Style := Ansi.strong .red

/-- How a complaint marks the arguments it quotes. -/
def quotedStyle : Ansi.Style := Ansi.strong .yellow

/-- How a complaint marks a tip and what it suggests. -/
def tipStyle : Ansi.Style := Ansi.fg .green

/-- How a complaint marks an option's name. -/
def nameStyle : Ansi.Style := { bold := true }

/-- How a complaint marks the heading of the usage line. -/
def headingStyle : Ansi.Style := { bold := true, underline := true }

/-- A complaint: what is wrong, an optional tip, an optional usage line, and where to look. -/
def complaint (what : String) (tip : Option String) (usage : Option String) : String :=
  Ansi.enclose errorStyle "error:" ++ " " ++ what ++
    (tip.map fun t => "\n\n  " ++ Ansi.enclose tipStyle "tip:" ++ " " ++ t).getD "" ++
    (usage.map fun u => "\n\n" ++ Ansi.enclose headingStyle "Usage:" ++ " " ++ u).getD "" ++
    "\n\nFor more information, try '" ++ Ansi.enclose nameStyle "--help" ++ "'.\n"

/-- An argument that fits nowhere. -/
def unexpected (arg : String) (tip : Option String) (usage : String) : Stop :=
  .complaint (complaint ("unexpected argument '" ++ Ansi.enclose quotedStyle arg ++ "' found") tip
    (some usage))

/-- The tip for an argument that looks like an option. -/
def asValueTip (arg : String) : String :=
  "to pass '" ++ Ansi.enclose quotedStyle arg ++ "' as a value, use '" ++
    Ansi.enclose tipStyle ("-- " ++ arg) ++ "'"

/-- The arguments recorded so far. -/
def Reading.used (r : Reading) : List Arg :=
  r.given.map Prod.fst

/-- Records an argument with its values. -/
def Reading.record (r : Reading) (arg : Arg) (values : List String) : Except Stop Reading :=
  if arg.needsValue && values.isEmpty then
    .error (.complaint (complaint ("a value is required for '" ++
      Ansi.enclose nameStyle arg.display ++ "' but none was supplied") none none))
  else if r.used.contains arg then
    .error (.complaint (complaint ("the argument '" ++ Ansi.enclose quotedStyle arg.display ++
      "' cannot be used multiple times") none (some generalUsage)))
  else
    .ok { r with given := r.given ++ [(arg, values.head?)], grouped := true }

/-- Records the pending argument, if any. -/
def Reading.settle (r : Reading) : Except Stop Reading :=
  match r.pending with
  | none => .ok r
  | some (arg, values) => { r with pending := none, wantsValue := false }.record arg values

/-- Records the pending argument if it can be recorded, without a complaint otherwise: an
argument without its value is dropped, and an argument given again is dropped together with
its earlier record. -/
def Reading.settleQuietly (r : Reading) : Reading :=
  let rest := { r with pending := none, wantsValue := false }
  match r.pending with
  | none => r
  | some (arg, values) =>
    if arg.needsValue && values.isEmpty then rest
    else if r.used.contains arg then { rest with given := rest.given.filter (·.1 != arg) }
    else { rest with given := rest.given ++ [(arg, values.head?)], grouped := true }

/-- An option without a value. -/
def Reading.switch (r : Reading) (f : Flag) : Except Stop Reading := do
  let r ← r.settle
  match f with
  | .help => .error .help
  | .version => .error .version
  | _ => r.record (.flag f) []

/-- An option that takes a value, with the value given in the same argument or not. -/
def Reading.option (r : Reading) (f : Flag) (value : Option String) : Except Stop Reading := do
  let r ← r.settle
  match value with
  | some v => r.record (.flag f) [v]
  | none => .ok { r with pending := some (.flag f, []), wantsValue := true }

/-- `--name` or `--name=value`. -/
def Reading.long (r : Reading) (name : String) (value : Option String) : Except Stop Reading :=
  match Flag.all.find? (·.long == name) with
  | some f =>
    if f.takesValue then r.option f value
    else
      match value with
      | none => r.switch f
      | some v =>
        let usage := if r.grouped then groupUsage (r.used ++ [.flag f]) else usageFor [.flag f]
        .error (.complaint (complaint ("unexpected value '" ++ Ansi.enclose quotedStyle v ++
          "' for '" ++ Ansi.enclose nameStyle f.display ++ "' found; no more were expected") none
          (some usage)))
  | none =>
    let r := r.settleQuietly
    let arg := "--" ++ name
    let used := r.used
    match Text.mostSimilar name (Flag.all.map Flag.long) with
    | some near =>
      let used := match Flag.all.find? (·.long == near) with
        | some f => used ++ [.flag f]
        | none => used
      .error (unexpected arg (some ("a similar argument exists: '" ++
        Ansi.enclose tipStyle ("--" ++ near) ++ "'")) (usageFor used))
    | none => .error (unexpected arg (some (asValueTip arg)) (usageFor used))

/-- The letters of `-abc`, read as a cluster of short options. -/
def Reading.shorts (r : Reading) : List Char → Except Stop Reading
  | [] => .ok r
  | c :: rest =>
    match Flag.all.find? (·.short == c) with
    | some f =>
      if f.takesValue then
        let value := match rest with
          | [] => none
          | '=' :: v => some (String.ofList v)
          | v => some (String.ofList v)
        r.option f value
      else do
        let r ← r.switch f
        r.shorts rest
    | none =>
      let arg := "-" ++ String.singleton c
      .error (unexpected arg (some (asValueTip arg)) generalUsage)

/-- An argument that is not an option. -/
def Reading.positional (r : Reading) (arg : String) : Except Stop Reading := do
  if r.inputSeen then
    .error (unexpected arg none generalUsage)
  else
    let r ← r.settle
    .ok { r with pending := some (.input, [arg]), inputSeen := true }

/-- `name=value` cut at its first `=`; no `=` means no value. -/
def cutAtEquals (cs : List Char) : String × Option String :=
  match cs.span (· != '=') with
  | (name, _ :: value) => (String.ofList name, some (String.ofList value))
  | (name, []) => (String.ofList name, none)

/-- Reads one argument. -/
def Reading.step (r : Reading) (arg : String) : Except Stop Reading :=
  if r.afterEscape then r.positional arg
  else
    match arg.toList with
    | ['-', '-'] => .ok { r with afterEscape := true }
    | '-' :: '-' :: rest =>
      let (name, value) := cutAtEquals rest
      r.long name value
    | '-' :: c :: rest => r.shorts (c :: rest)
    | _ =>
      match r.wantsValue, r.pending with
      | true, some (a, values) => .ok { r with pending := some (a, values ++ [arg]), wantsValue := false }
      | _, _ => r.positional arg

/-- The value recorded for an option. -/
def Reading.valueOf (r : Reading) (arg : Arg) : Option String :=
  (r.given.find? (·.1 == arg)).bind Prod.snd

/-- Records what is pending and checks that the input was given. -/
def Reading.finish (r : Reading) : Except Stop Invocation := do
  let r ← r.settle
  match r.valueOf .input with
  | some input =>
    .ok { input, output := r.valueOf (.flag .output), dump := r.used.contains (.flag .dump),
          symbols := r.valueOf (.flag .symbols) }
  | none =>
    .error (.complaint (complaint ("the following required arguments were not provided:\n  " ++
      Ansi.enclose tipStyle "<INPUT>") none (some (usageFor (r.used ++ [.input])))))

/-- Reads the arguments after the program name. -/
def readArguments (args : List String) : Request :=
  match args.foldlM Reading.step {} >>= Reading.finish with
  | .ok inv => .assemble inv
  | .error .help => .showHelp
  | .error .version => .showVersion
  | .error (.complaint text) => .refuse text

/-- What the program is, as the help shows it. -/
def programAbout : String := "Assembler for the Hack 16-bit computer"

/-- `n` spaces. -/
def spaces (n : Nat) : String :=
  String.ofList (List.replicate n ' ')

/-- The option column of the help: `-o, --output <OUTPUT>`. -/
def Flag.names (f : Flag) : String :=
  "-" ++ String.singleton f.short ++ ", " ++ f.display

/-- The text `--help` prints, under the program's name and version the line of its `author`. -/
def helpText (author : String) : String :=
  let width := (Flag.all.map fun f => f.names.length).foldl max 0
  let row := fun (f : Flag) => "  " ++ f.names ++ spaces (width - f.names.length) ++ "  " ++
    f.about ++ "\n"
  programName ++ " " ++ programVersion ++ "\n  " ++ author ++ "\n  " ++ programAbout ++
    "\n\nUsage:\n  " ++ generalUsage ++ "\n\nArguments:\n  <INPUT>  Input assembly file\n\nOptions:\n" ++
    String.join (Flag.all.map row)

/-- The text `--version` prints. -/
def versionText : String :=
  programName ++ " " ++ programVersion ++ "\n"

example : readArguments ["-dsS.yaml", "Add.asm"] =
    .assemble { input := "Add.asm", dump := true, symbols := some "S.yaml" } := by decide +kernel

end HackAsm.Cli
