import HackAsm.Symbols.Context
import HackAsm.Text.Numeral

/-!
# The symbol table as YAML

The symbol table is written as a YAML mapping of three block mappings, `predefined`, `labels`
and `variables`, each listing its symbols in binding order with their addresses; an empty
mapping is written `{}`.

A symbol is written as a plain scalar unless a YAML reader would take the plain text for
something other than a string, or the plain form is not allowed; then it is single-quoted.
Symbols are identifiers (letters, digits and `_ . $ :`), and for them that means:
the null and boolean words in their three spellings, the special floats `.inf` and `.nan`,
a decimal such as `.5` or `.5e3` that is finite as a double (`.9e309` is too large, reads as no
float, and stays plain), a text starting with `...` (a document end), and a text ending with `:`
(a mapping indicator). A key longer than 128 bytes cannot be a simple key
and is written in the explicit form `? key` then `: value`.
-/

set_option autoImplicit false

namespace HackAsm.Yaml

/-- The words a YAML reader takes for null, a boolean, or an infinite or undefined float. -/
def reservedWords : List String :=
  ["null", "Null", "NULL", "true", "True", "TRUE", "false", "False", "FALSE",
    ".inf", ".Inf", ".INF", ".nan", ".NaN", ".NAN"]

/-- The fraction digits and the exponent digits (none without an exponent) of a decimal with no
sign and no integer part, such as `.5` or `.25E3`. -/
def bareDecimal? (cs : List Char) : Option (List Char × List Char) :=
  match cs with
  | '.' :: rest =>
    let ds := rest.takeWhile Char.isDigit
    if ds.isEmpty then none
    else
      match rest.dropWhile Char.isDigit with
      | [] => some (ds, [])
      | e :: exp =>
        if (e == 'e' || e == 'E') && !exp.isEmpty && exp.all Char.isDigit then some (ds, exp)
        else none
  | _ => none

/-- Half-way between the largest finite double, `(2^53 - 1) · 2^971`, and `2^1024`. A decimal
at least this large rounds to an infinite double, since the tie goes to the even neighbour. -/
def doubleOverflow : Nat :=
  2 ^ 1024 - 2 ^ 970

/-- Whether the decimal `0.ds × 10^e` is below `doubleOverflow`. With `k` significant digits the
value lies in `[10^(k-1+e-|ds|), 10^(k+e-|ds|))`, so only when `k + e = 309 + |ds|` are the
numbers themselves compared, and then every power involved is small. -/
def belowDoubleOverflow (ds : List Char) (e : Nat) : Bool :=
  let d := Numeral.decimalValue ds
  let k := (Nat.toDigits 10 d).length
  if d = 0 then true
  else if k + e ≤ 308 + ds.length then true
  else if k + e ≥ 310 + ds.length then false
  else if e ≥ ds.length then d * 10 ^ (e - ds.length) < doubleOverflow
  else d < doubleOverflow * 10 ^ (ds.length - e)

/-- Whether a bare decimal reads as a finite double, which a YAML reader takes for a float; one
too large for a double stays a string. -/
def isFiniteDecimal (cs : List Char) : Bool :=
  match bareDecimal? cs with
  | some (ds, exp) => belowDoubleOverflow ds (Numeral.decimalValue exp)
  | none => false

example : isFiniteDecimal ".5e3".toList = true := by decide +kernel
example : isFiniteDecimal ".18e309".toList = false := by decide +kernel
example : isFiniteDecimal ".17e309".toList = true := by decide +kernel
example : isFiniteDecimal ".5e".toList = false := by decide +kernel

/-- Whether an identifier must be single-quoted to read back as a string. -/
def needsQuotes (name : String) : Bool :=
  let cs := name.toList
  reservedWords.contains name || isFiniteDecimal cs || cs.take 3 == ['.', '.', '.'] ||
    cs.getLast? == some ':'

/-- A symbol as a scalar. -/
def scalar (name : String) : String :=
  if needsQuotes name then "'" ++ name ++ "'" else name

/-- One entry of a block mapping indented by two spaces. -/
def entry (binding : String × Address) : String :=
  let (name, value) := binding
  if name.utf8ByteSize > 128 then
    "  ? " ++ scalar name ++ "\n  : " ++ toString value.val ++ "\n"
  else
    "  " ++ scalar name ++ ": " ++ toString value.val ++ "\n"

/-- A named block mapping, or `{}` when it is empty. -/
def mapping (title : String) (bindings : List (String × Address)) : String :=
  match bindings with
  | [] => title ++ ": {}\n"
  | _ => title ++ ":\n" ++ String.join (bindings.map entry)

end HackAsm.Yaml

namespace HackAsm

/-- The symbol table as a YAML document. -/
def SymbolTable.toYaml (t : SymbolTable) : String :=
  Yaml.mapping "predefined" t.predefined ++ Yaml.mapping "labels" t.labels ++
    Yaml.mapping "variables" t.vars

end HackAsm
