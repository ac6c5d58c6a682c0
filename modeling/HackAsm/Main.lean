import HackAsm.Cli.Session

/-!
# The `hasm` executable

Runs the assembler on the real file system: files are read and written through `IO`, and the
process exits with the run's status.
-/

set_option autoImplicit false

namespace HackAsm.Cli

/-- The real file system and streams. -/
instance : Host IO where
  readText path := do
    try
      let bytes ← IO.FS.readBinFile path
      return String.fromUTF8? bytes
    catch _ => return none
  createFile path := do
    try
      IO.FS.writeFile path ""
      return true
    catch _ => return false
  appendFile path text := do
    try
      let h ← IO.FS.Handle.mk path .append
      h.putStr text
      h.flush
      return true
    catch _ => return false
  putOut s := do
    let out ← IO.getStdout
    out.putStr s
    out.flush
  putErr s := do
    let err ← IO.getStderr
    err.putStr s
    err.flush

end HackAsm.Cli

/-- Runs the assembler with the command-line arguments. The help names the author that the
environment variable `HASM_AUTHOR` gives, and no one when it is not set. -/
def main (args : List String) : IO UInt32 := do
  let author := (← IO.getEnv "HASM_AUTHOR").getD ""
  let code ← HackAsm.Cli.run author args
  return (HackAsm.Cli.exitStatus code).toUInt32
