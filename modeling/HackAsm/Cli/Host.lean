/-!
# What a run needs from its surroundings

A run of the assembler reads one file, creates files and writes to them, and prints to standard
output and standard error. `Host` names these effects, so that one description of a run serves
both the real file system and the model of one (`HackAsm.Cli.Disk`).

Output files are written through a buffer of 8 KiB, as a buffered writer does it: text that
fits in the buffer's free space waits there; text that does not first sends the waiting text
on, and is then sent on at once if it fills a whole buffer, or waits otherwise. So a device that
refuses every byte is noticed only when the buffer is sent on, at the latest when it is flushed.
-/

set_option autoImplicit false

namespace HackAsm.Cli

/-- The effects a run uses. -/
class Host (m : Type → Type) where
  /-- The contents of a file as UTF-8 text, or `none` when it cannot be read as such. -/
  readText : String → m (Option String)
  /-- Creates a file, or empties an existing one; `false` when that is not possible. -/
  createFile : String → m Bool
  /-- Adds text at the end of a created file; `false` when the device refuses it. -/
  appendFile : String → String → m Bool
  /-- Prints to standard output. -/
  putOut : String → m Unit
  /-- Prints to standard error. -/
  putErr : String → m Unit

/-- The size of an output buffer in bytes. -/
def bufferCapacity : Nat := 8192

/-- An output file with the text waiting to be sent on. -/
structure Buffer where
  path : String
  waiting : String := ""

namespace Buffer

variable {m : Type → Type} [Monad m] [Host m]

/-- Sends the waiting text on; `false` when it is refused. -/
def drain (b : Buffer) : m Bool :=
  if b.waiting.isEmpty then pure true else Host.appendFile b.path b.waiting

/-- Writes text through the buffer; `none` when sending text on fails. -/
def write (b : Buffer) (text : String) : m (Option Buffer) := do
  let size := text.utf8ByteSize
  let free := bufferCapacity - b.waiting.utf8ByteSize
  if size < free then
    return some { b with waiting := b.waiting ++ text }
  let b ← if size > free then do
      if ← b.drain then pure (some { b with waiting := "" }) else pure none
    else pure (some b)
  match b with
  | none => return none
  | some b =>
    if size ≥ bufferCapacity then
      if ← Host.appendFile b.path text then return some b else return none
    else
      return some { b with waiting := b.waiting ++ text }

/-- Sends all waiting text on; `false` when it is refused. -/
def flush (b : Buffer) : m Bool :=
  b.drain

end Buffer

end HackAsm.Cli
