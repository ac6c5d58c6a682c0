/-!
# Jump conditions

A compute instruction may jump to the address in A when its result compares with zero in one
of seven ways, or always. The three bits are `lt eq gt`; the condition is spelled by its
three-letter mnemonic, and the absence of a jump by nothing. `parse?_spelling` says that each
spelling reads back as its condition.
-/

set_option autoImplicit false

namespace HackAsm

/-- When a compute instruction jumps. -/
inductive Jump where
  | null
  | jgt
  | jeq
  | jge
  | jlt
  | jne
  | jle
  | jmp
  deriving DecidableEq, Repr, Inhabited

namespace Jump

/-- Every condition, by code. -/
def all : List Jump :=
  [null, jgt, jeq, jge, jlt, jne, jle, jmp]

/-- The mnemonic; no jump is spelled by nothing. -/
def spelling : Jump → String
  | null => ""
  | jgt => "JGT"
  | jeq => "JEQ"
  | jge => "JGE"
  | jlt => "JLT"
  | jne => "JNE"
  | jle => "JLE"
  | jmp => "JMP"

/-- The three jump bits `lt eq gt`. -/
def code : Jump → Nat
  | null => 0
  | jgt => 1
  | jeq => 2
  | jge => 3
  | jlt => 4
  | jne => 5
  | jle => 6
  | jmp => 7

/-- The condition spelled exactly `s`. -/
def parse? (s : String) : Option Jump :=
  all.find? fun x => x.spelling == s

theorem code_lt (x : Jump) : x.code < 8 := by
  cases x <;> decide

theorem code_injective {x y : Jump} (h : x.code = y.code) : x = y := by
  cases x <;> cases y <;> simp_all [code]

theorem parse?_spelling (x : Jump) : parse? x.spelling = some x := by
  cases x <;> decide

end Jump

end HackAsm
