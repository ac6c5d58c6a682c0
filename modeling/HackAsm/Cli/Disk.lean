import HackAsm.Cli.Host

/-!
# A model of the file system

A disk maps locations to what they hold: a file, a directory, or a device. A relative path
starts in the working directory and an absolute one at the root, and both are directories. A
path is resolved one component at a time: every component is looked up in a directory, `.` stays
and `..` goes up (from the root it stays at the root), and a path that ends in `/`, `.` or `..`
must name a directory.

The directories above the working directory exist and take new files, but what they hold is not
part of the model: they start empty, and only the working directory is listed.

Reading needs a file whose bytes are UTF-8 text, or a device that reads as empty. Creating needs
an existing directory around the new file and fails on a directory; it empties an existing file
and leaves a device as it is. Appending adds text to a file, or hands it to a device: the null
device swallows it, the full device accepts only nothing, and the output devices pass it to the
process's own streams.

`Machine` adds standard output and standard error to a disk, and a run over a `Machine` is a
run of the assembler with nothing outside the model. The standard disk has the usual devices
under `/dev`, the standard streams again under `/dev/fd` and `/proc/self/fd`, and `/tmp`.
-/

set_option autoImplicit false

namespace HackAsm.Cli

/-- What a file holds: text, or bytes that are not UTF-8. -/
inductive Content where
  | text (s : String)
  | bytes (data : List UInt8)
  deriving DecidableEq, Repr

/-- A device: a node that acts when it is read or written instead of storing text. -/
inductive Device where
  /-- Reads as empty and swallows what is written. -/
  | null
  /-- Refuses every byte written to it. -/
  | full
  /-- Swallows what is written; reading it never ends, so it cannot be read as text. -/
  | endless
  /-- Passes what is written to the process's standard output. -/
  | stdout
  /-- Passes what is written to the process's standard error. -/
  | stderr
  /-- The controlling terminal, which a process without one cannot open. -/
  | terminal
  deriving DecidableEq, Repr

/-- What a location holds. -/
inductive Node where
  | file (content : Content)
  | directory
  | device (kind : Device)
  deriving DecidableEq, Repr

/-- A location: the components under the working directory, or `"/"` and the components under
the root. Above the working directory a location starts with as many `".."` as it goes up. -/
abbrev Location := List String

/-- The nodes of a file system, one per location. -/
structure Disk where
  nodes : List (Location × Node) := []

namespace Disk

/-- What a location holds. -/
def get? (d : Disk) (loc : Location) : Option Node :=
  d.nodes.lookup loc

/-- Puts a node at a location, replacing what was there. -/
def set (d : Disk) (loc : Location) (node : Node) : Disk :=
  if (d.nodes.lookup loc).isSome then
    { nodes := d.nodes.map fun (l, n) => if l == loc then (l, node) else (l, n) }
  else
    { nodes := d.nodes ++ [(loc, node)] }

/-- Whether a location is one of the directories above the working directory. -/
def isAbove (loc : Location) : Bool :=
  !loc.isEmpty && loc.all (· == "..")

/-- Whether a location is a directory; the working directory, the directories above it and the
root always are. -/
def isDirectory (d : Disk) (loc : Location) : Bool :=
  loc.isEmpty || loc == ["/"] || isAbove loc || d.get? loc == some .directory

/-- The directory above a location. -/
def parent (loc : Location) : Location :=
  if loc.isEmpty || isAbove loc then loc ++ [".."]
  else if loc == ["/"] then loc
  else loc.dropLast

/-- Follows components from a directory, each looked up in a directory. -/
def walk (d : Disk) (loc : Location) : List String → Option Location
  | [] => some loc
  | c :: rest =>
    if !d.isDirectory loc then none
    else if c == "." then d.walk loc rest
    else if c == ".." then d.walk (parent loc) rest
    else d.walk (loc ++ [c]) rest

/-- The components of a path and the location it starts from. -/
def startOf (path : String) : Location × List String :=
  (if path.toList.head? == some '/' then ["/"] else [], (path.splitOn "/").filter (· != ""))

/-- The location a path names, and whether it must be a directory. -/
def locate (d : Disk) (path : String) : Option (Location × Bool) :=
  let cs := path.toList
  if cs.isEmpty then none
  else
    let (start, parts) := startOf path
    let mustBeDirectory := cs.getLast? == some '/' || parts.getLast? == some "." ||
      parts.getLast? == some ".."
    (d.walk start parts).map fun loc => (loc, mustBeDirectory)

/-- The text of a file, or the empty text of a device that reads as empty. -/
def readText (d : Disk) (path : String) : Option String :=
  match d.locate path with
  | some (loc, false) =>
    match d.get? loc with
    | some (.file (.text s)) => some s
    | some (.device .null) => some ""
    | _ => none
  | _ => none

/-- Creates or empties a file; a device is opened and stays as it is. -/
def create (d : Disk) (path : String) : Option Disk :=
  match d.locate path with
  | some (loc, false) =>
    if d.isDirectory loc then none
    else
      match d.get? loc with
      | some (.device .terminal) => none
      | some (.device _) => some d
      | _ => some (d.set loc (.file (.text "")))
  | _ => none

/-- Puts a node at a path, following `.` and `..` and making the missing directories on the
way. Writing to a device does not replace it, so a device at the path stays. -/
def place (d : Disk) (path : String) (node : Node) : Disk :=
  let (start, parts) := startOf path
  match parts.reverse with
  | [] => d
  | name :: above =>
    let step := fun (acc : Disk × Location) (c : String) =>
      let (d, loc) := acc
      if c == "." then (d, loc)
      else if c == ".." then (d, parent loc)
      else
        let next := loc ++ [c]
        if (d.get? next).isSome then (d, next) else (d.set next .directory, next)
    let (d, loc) := above.reverse.foldl step (d, start)
    let target := loc ++ [name]
    match d.get? target with
    | some (.device _) => d
    | _ => d.set target node

/-- The working directory's entries, each with its path relative to it. -/
def listing (d : Disk) : List (String × Node) :=
  d.nodes.filterMap fun (loc, node) =>
    if loc.head? == some "/" || loc.head? == some ".." then none
    else some ("/".intercalate loc, node)

/-- The standard streams by number, as `/dev/fd` and `/proc/self/fd` list them; standard input
reads as empty. -/
def streams : List (String × Device) :=
  [("0", .null), ("1", .stdout), ("2", .stderr)]

/-- The usual devices and where they are. -/
def devices : List (String × Device) :=
  [("/dev/null", .null), ("/dev/full", .full), ("/dev/zero", .endless),
    ("/dev/random", .endless), ("/dev/urandom", .endless), ("/dev/stdin", .null),
    ("/dev/stdout", .stdout), ("/dev/stderr", .stderr), ("/dev/tty", .terminal)] ++
  streams.map (fun (n, kind) => ("/dev/fd/" ++ n, kind)) ++
  streams.map (fun (n, kind) => ("/proc/self/fd/" ++ n, kind))

/-- An empty working directory on a system with the usual devices and a directory for temporary
files. -/
def standard : Disk :=
  devices.foldl (fun d (path, kind) => d.place path (.device kind))
    (({} : Disk).set ["/", "tmp"] .directory)

end Disk

/-- A file system with the two output streams of a process. -/
structure Machine where
  disk : Disk
  stdout : String := ""
  stderr : String := ""

/-- Adds text at the end of what a path names; `none` when it is refused. -/
def Machine.append (mc : Machine) (path : String) (text : String) : Option Machine :=
  match mc.disk.locate path with
  | some (loc, _) =>
    match mc.disk.get? loc with
    | some (.file (.text s)) => some { mc with disk := mc.disk.set loc (.file (.text (s ++ text))) }
    | some (.device .null) | some (.device .endless) => some mc
    | some (.device .full) => if text.isEmpty then some mc else none
    | some (.device .stdout) => some { mc with stdout := mc.stdout ++ text }
    | some (.device .stderr) => some { mc with stderr := mc.stderr ++ text }
    | _ => none
  | none => none

instance : Host (StateM Machine) where
  readText path := return (← get).disk.readText path
  createFile path := modifyGet fun mc =>
    match mc.disk.create path with
    | some d => (true, { mc with disk := d })
    | none => (false, mc)
  appendFile path text := modifyGet fun mc =>
    match mc.append path text with
    | some mc' => (true, mc')
    | none => (false, mc)
  putOut s := modify fun mc => { mc with stdout := mc.stdout ++ s }
  putErr s := modify fun mc => { mc with stderr := mc.stderr ++ s }

end HackAsm.Cli
