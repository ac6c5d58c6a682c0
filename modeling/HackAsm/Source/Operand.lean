import HackAsm.Error
import HackAsm.Machine.Symbol
import HackAsm.Text.Numeral

/-!
# Operands of a load

The operand of `@x` is a number or a symbol. A numeral, optionally after one minus sign, is
always read as a number, so `@16` never names a symbol: its value must lie between `0` and
`2^15 - 1`, which admits leading zeros and `-0` and refuses every other negative number and
every numeral too long to fit. An operand that is not a numeral must be spelled as a symbol.
-/

set_option autoImplicit false

namespace HackAsm

/-- The operand of a load instruction. -/
inductive Operand where
  | literal (value : Address)
  | symbol (name : String)
  deriving DecidableEq, Repr

namespace Operand

/-- A numeral's sign and digits: an optional minus sign, then at least one ASCII digit. -/
def numeral? (cs : List Char) : Option (Bool × List Char) :=
  let (negative, ds) := match cs with
    | '-' :: rest => (true, rest)
    | _ => (false, cs)
  if !ds.isEmpty && ds.all Char.isDigit then some (negative, ds) else none

/-- Reads the operand of `@s`. -/
def parse (s : String) : Except Error Operand :=
  match numeral? s.toList with
  | some (negative, ds) =>
    let n := Numeral.decimalValue ds
    if h : n ≤ addressMax ∧ (negative = false ∨ n = 0) then
      .ok (.literal ⟨n, by unfold addressMax at h; omega⟩)
    else
      .error (.addressOutOfRange s)
  | none => if Symbol.isSymbol s then .ok (.symbol s) else .error (.undefinedReference s)

example : parse "-0" = .ok (.literal 0) := rfl
example : parse "0032767" = .ok (.literal 32767) := rfl
example : parse "32768" = .error (.addressOutOfRange "32768") := rfl
example : parse "1_000" = .error (.undefinedReference "1_000") := rfl

end Operand

end HackAsm
