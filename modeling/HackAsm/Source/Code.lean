import HackAsm.Machine.Instruction
import HackAsm.Source.Operand

/-!
# Reading an instruction

The code of an instruction line is a load `@operand` or a computation `dest=comp;jump`. A
computation is cut at its first `=` and the rest at its first `;`; without `=` there is no
destination and without `;` no jump, so `D;` and `=D` are computations with empty fields that
read as absent. The fields are checked in the order destination, computation, jump, and the
first that names nothing is the error, carrying that field's text.
-/

set_option autoImplicit false

namespace HackAsm

/-- The characters before and after the first `sep`, if `sep` occurs. -/
def splitAtFirst (sep : Char) : List Char → Option (List Char × List Char)
  | [] => none
  | c :: rest =>
    if c = sep then some ([], rest)
    else (splitAtFirst sep rest).map fun (before, after) => (c :: before, after)

/-- An instruction as written, before its symbol is resolved. -/
inductive Code where
  | address (operand : Operand)
  | compute (input : AluInput) (comp : Comp) (dest : Dest) (jump : Jump)
  deriving DecidableEq, Repr

/-- The three fields of a computation: destination, computation and jump, as written. -/
def computeFields (cs : List Char) : List Char × List Char × List Char :=
  let (dest, rest) := (splitAtFirst '=' cs).getD ([], cs)
  let (comp, jump) := (splitAtFirst ';' rest).getD (rest, [])
  (dest, comp, jump)

/-- Reads the code of an instruction line. -/
def Code.parse (code : String) : Except Error Code :=
  match code.toList with
  | '@' :: rest => .address <$> Operand.parse (String.ofList rest)
  | cs =>
    let (destText, compText, jumpText) := computeFields cs
    let destField := String.ofList destText
    let compField := String.ofList compText
    let jumpField := String.ofList jumpText
    match Dest.parse? destField with
    | none => .error (.unresolvedDest destField)
    | some dest =>
      match Comp.parse? compField with
      | none => .error (.unresolvedComp compField)
      | some (input, comp) =>
        match Jump.parse? jumpField with
        | none => .error (.unresolvedJump jumpField)
        | some jump => .ok (.compute input comp dest jump)

example : Code.parse "AM=M-1;JNE" = .ok (.compute .m .decA .am .jne) := rfl
example : Code.parse "D;JGT;JMP" = .error (.unresolvedJump "JGT;JMP") := rfl
example : Code.parse "M=" = .error (.unresolvedComp "") := rfl

end HackAsm
