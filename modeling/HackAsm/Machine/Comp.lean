/-!
# ALU computations

A compute instruction selects one of eighteen ALU functions of the D register and a second
input. The second input is either the A register or the memory word `M = RAM[A]`; the same
six control bits serve both, and bit 12 of the instruction tells them apart.

Each computation has one spelling written with `A` (`D+A`, `!A`, `0`); its memory form
replaces every `A` by `M` (`D+M`, `!M`). Reading a field is the inverse: a field that contains
`M` is read with every `M` taken as `A` and the memory input selected, so a field that mixes
`A` and `M` (`A+M`) is no computation at all. `parse?_mnemonic` says that every spelling
this module writes reads back as what it was written from.
-/

set_option autoImplicit false

namespace HackAsm

/-- The ALU's second input: the A register, or the memory word that A addresses. -/
inductive AluInput where
  | a
  | m
  deriving DecidableEq, Repr, Inhabited

/-- Bit 12 of a compute instruction. -/
def AluInput.bit : AluInput → Nat
  | .a => 0
  | .m => 1

/-- The eighteen ALU computations, named for the value they produce. -/
inductive Comp where
  | zero
  | one
  | negOne
  | d
  | a
  | notD
  | notA
  | negD
  | negA
  | incD
  | incA
  | decD
  | decA
  | add
  | subDA
  | subAD
  | dAndA
  | dOrA
  deriving DecidableEq, Repr, Inhabited

namespace Comp

/-- Every computation, in the order of the manual's table. -/
def all : List Comp :=
  [zero, one, negOne, d, a, notD, notA, negD, negA, incD, incA, decD, decA, add, subDA, subAD,
    dAndA, dOrA]

theorem mem_all (c : Comp) : c ∈ all := by
  cases c <;> decide

/-- The spelling with the A register as second input. -/
def spelling : Comp → String
  | zero => "0"
  | one => "1"
  | negOne => "-1"
  | d => "D"
  | a => "A"
  | notD => "!D"
  | notA => "!A"
  | negD => "-D"
  | negA => "-A"
  | incD => "D+1"
  | incA => "A+1"
  | decD => "D-1"
  | decA => "A-1"
  | add => "D+A"
  | subDA => "D-A"
  | subAD => "A-D"
  | dAndA => "D&A"
  | dOrA => "D|A"

/-- The six control bits `zx nx zy ny f no` of the ALU. -/
def code : Comp → Nat
  | zero => 0b101010
  | one => 0b111111
  | negOne => 0b111010
  | d => 0b001100
  | a => 0b110000
  | notD => 0b001101
  | notA => 0b110001
  | negD => 0b001111
  | negA => 0b110011
  | incD => 0b011111
  | incA => 0b110111
  | decD => 0b001110
  | decA => 0b110010
  | add => 0b000010
  | subDA => 0b010011
  | subAD => 0b000111
  | dAndA => 0b000000
  | dOrA => 0b010101

/-- Whether the computation reads its second input: exactly the spellings that contain `A`. -/
def usesA : Comp → Bool
  | a | notA | negA | incA | decA | add | subDA | subAD | dAndA | dOrA => true
  | zero | one | negOne | d | notD | negD | incD | decD => false

/-- Every `A` replaced by `M`. -/
def toMemory (s : String) : String :=
  String.ofList (s.toList.map fun c => if c = 'A' then 'M' else c)

/-- Every `M` replaced by `A`. -/
def toRegister (s : String) : String :=
  String.ofList (s.toList.map fun c => if c = 'M' then 'A' else c)

/-- The spelling for a given second input; computations that do not read it have one spelling. -/
def mnemonic (c : Comp) : AluInput → String
  | .a => c.spelling
  | .m => if c.usesA then toMemory c.spelling else c.spelling

/-- The computation spelled exactly `s` with the A register. -/
def ofSpelling? (s : String) : Option Comp :=
  all.find? fun c => c.spelling == s

/-- Reads a computation field: a field containing `M` selects memory and is read with `M` as
`A`; any other field selects the A register. -/
def parse? (field : String) : Option (AluInput × Comp) :=
  if 'M' ∈ field.toList then
    (ofSpelling? (toRegister field)).map fun c => (.m, c)
  else
    (ofSpelling? field).map fun c => (.a, c)

theorem code_lt (c : Comp) : c.code < 64 := by
  cases c <;> decide

theorem code_injective {c c' : Comp} (h : c.code = c'.code) : c = c' := by
  cases c <;> cases c' <;> simp_all [code]

theorem parse?_mnemonic (c : Comp) (i : AluInput) (h : i = .a ∨ c.usesA = true) :
    parse? (c.mnemonic i) = some (i, c) := by
  cases c <;> cases i <;> simp_all [usesA] <;> decide

end Comp

end HackAsm
