import HackAsm.Source.Line
import HackAsm.Symbols.Table

/-!
# The first pass: label addresses

The first pass walks the lines once and counts instruction lines. A label is bound to the
count so far, the address of the next instruction; blank lines and labels take no address.
A label fails when its name is predefined or already bound, or when no instruction address is
left for it; an instruction line fails when the ROM is already full. The pass stops at the
first failing line.
-/

set_option autoImplicit false

namespace HackAsm

/-- The first pass from address `pc` with the labels bound so far. -/
def collectLabelsFrom (pc : Nat) (labels : Table) : List Line → Except LineError Table
  | [] => .ok labels
  | line :: rest =>
    match line.statement with
    | .blank => collectLabelsFrom pc labels rest
    | .label name =>
      if (Symbol.predefined? name).isSome || labels.contains name then
        .error (line.fail (.redefinedLabel name))
      else if h : pc ≤ addressMax then
        collectLabelsFrom pc (labels.insert name ⟨pc, by unfold addressMax at h; omega⟩) rest
      else
        .error (line.fail (.addressOutOfRange name))
    | .instruction =>
      if pc < romSize then collectLabelsFrom (pc + 1) labels rest
      else .error (line.fail (.addressOutOfRange line.code))

/-- The label table of a program, or the first line that cannot be placed. -/
def collectLabels (lines : List Line) : Except LineError Table :=
  collectLabelsFrom 0 Table.empty lines

end HackAsm
